import Metalanguage.Proofs.Expression.Descendants
import Metalanguage.Proofs.Expression.Identity

/-!
# Proofs/Expression/Containment — what an expression contains is what lies below it

Below an expression are its children and what is below them (`Expression.mem_below_iff`). An
expression contains every needle but a text exactly when something below it is equal to the needle
(`Expression.contains_iff`). Level expressions have level things below them
(`Expression.Built.exists_level_below`), so steps to children up to equality lead to the same needles
as exact ones do (`Expression.Built.contains_iff_exists_descent`). In a text such steps are the ways
that links may follow (`Text.Built.contains_iff_exists_along`).
-/

namespace Metalanguage

open Std Ordered

variable {k : Stock}

/-! ## What is below an expression -/

namespace Expression

/-- The expressions that an expression is made of, at any depth. -/
def below : Expression → List Expression
  | part p => p.descendants.map part
  | text t => t.members.flatMap fun m => part m.toPart :: m.toPart.descendants.map part
  | hypertext h => h.texts.flatMap fun t =>
    text t :: t.members.flatMap fun m => part m.toPart :: m.toPart.descendants.map part

theorem mem_below_iff {x d : Expression} :
    d ∈ x.below ↔ ∃ c ∈ x.children, d = c ∨ d ∈ c.below := by
  cases x with
  | part p =>
    simp only [below, children, List.mem_map]
    constructor
    · rintro ⟨q, hq, rfl⟩
      obtain ⟨c, hc, hqc⟩ := Part.mem_descendants_iff.1 hq
      refine ⟨part c, ⟨c, hc, rfl⟩, hqc.imp (congrArg part) fun hqc => List.mem_map_of_mem hqc⟩
    · rintro ⟨_, ⟨c, hc, rfl⟩, rfl | hd⟩
      · exact ⟨c, Part.mem_descendants_iff.2 ⟨c, hc, .inl rfl⟩, rfl⟩
      · obtain ⟨q, hq, rfl⟩ := List.mem_map.1 hd
        exact ⟨q, Part.mem_descendants_iff.2 ⟨c, hc, .inr hq⟩, rfl⟩
  | text t => simp [below, children]
  | hypertext h => simp [below, children]

theorem kind_lt_of_mem_children {x c : Expression} (h : c ∈ x.children) :
    c.kind.ctorIdx < x.kind.ctorIdx := by
  cases x <;> obtain ⟨a, ha, rfl⟩ := List.mem_map.1 h
  case part p => exact Part.kind_lt_of_mem_children ha
  case text t => cases a <;> exact Nat.lt_of_sub_eq_succ rfl
  case hypertext h => exact Nat.lt_succ_self _

/-- What passes from the children of an expression to the expression holds of every expression. -/
theorem induction {motive : Expression → Prop}
    (step : ∀ x, (∀ c ∈ x.children, motive c) → motive x) (x : Expression) : motive x :=
  step x fun c _ => induction step c
termination_by x.kind.ctorIdx
decreasing_by exact kind_lt_of_mem_children ‹_›

theorem mem_below_trans {x d e : Expression} (hd : d ∈ x.below) (he : e ∈ d.below) :
    e ∈ x.below := by
  induction x using induction with
  | step x ih =>
    obtain ⟨c, hc, rfl | hdc⟩ := mem_below_iff.1 hd
    · exact mem_below_iff.2 ⟨d, hc, .inr he⟩
    · exact mem_below_iff.2 ⟨c, hc, .inr (ih c hc hdc)⟩

/-! ## Looking for a needle -/

theorem part_kind_ne_text (p : Part) : (part p).kind ≠ .text := by
  cases p <;> exact Kind.noConfusion

/-- **A needle but a text is in an expression if a child is the needle or contains it.** -/
theorem contains_iff_children {x n : Expression} (hn : n.kind ≠ .text) :
    x.contains n = true ↔ ∃ c ∈ x.children, (c == n) = true ∨ c.contains n = true := by
  cases x <;> simp only [children, List.mem_map, exists_exists_and_eq_and]
  case part p =>
    cases n with
    | part q => exact Part.contains_iff_children
    | text u => exact absurd rfl hn
    | hypertext h =>
      refine ⟨(absurd · Bool.false_ne_true), ?_⟩
      rintro ⟨c, -, hc | hc⟩
      · have hkind := (beq_iff.1 hc).1
        cases c <;> cases hkind
      · cases hc
  case text t =>
    cases n with
    | part q =>
      refine List.any_eq_true.trans (exists_congr fun m => and_congr_right fun _ => ?_)
      exact Bool.or_eq_true_iff
    | text u => exact absurd rfl hn
    | hypertext h =>
      refine ⟨(absurd · Bool.false_ne_true), ?_⟩
      rintro ⟨m, -, hm | hm⟩
      · have hkind := (beq_iff.1 hm).1
        cases m <;> cases hkind
      · cases hm
  case hypertext h =>
    refine List.any_eq_true.trans (exists_congr fun t => and_congr_right fun _ => ?_)
    exact ⟨.inr, fun h => h.resolve_left fun heq => hn (beq_iff.1 heq).1.symm⟩

/-- **An expression contains every needle but a text when the needle is below it.** -/
theorem contains_iff {x n : Expression} (hn : n.kind ≠ .text) :
    x.contains n = true ↔ ∃ d ∈ x.below, (d == n) = true := by
  induction x using induction with
  | step x ih =>
    rw [contains_iff_children hn]
    constructor
    · rintro ⟨c, hc, hcn | hcn⟩
      · exact ⟨c, mem_below_iff.2 ⟨c, hc, .inl rfl⟩, hcn⟩
      · obtain ⟨d, hd, hdn⟩ := (ih c hc).1 hcn
        exact ⟨d, mem_below_iff.2 ⟨c, hc, .inr hd⟩, hdn⟩
    · rintro ⟨d, hd, hdn⟩
      obtain ⟨c, hc, rfl | hd⟩ := mem_below_iff.1 hd
      · exact ⟨d, hc, .inl hdn⟩
      · exact ⟨c, hc, .inr ((ih c hc).2 ⟨d, hd, hdn⟩)⟩

/-- A needle may be looked for by any expression that is equal to it. -/
theorem contains_congr {x n n' : Expression} (hn : n.kind ≠ .text) (heq : (n == n') = true)
    (h : x.contains n = true) : x.contains n' = true := by
  obtain ⟨d, hd, hdn⟩ := (contains_iff hn).1 h
  exact (contains_iff ((beq_iff.1 heq).1 ▸ hn)).2 ⟨d, hd, beq_trans hdn heq⟩

end Expression

/-! ## Children of what is built -/

theorem Part.Built.of_mem_children {p c : Part} (hp : p.Built k) (hc : c ∈ p.children) :
    c.Built k := by
  cases p <;> simp only [children, List.mem_map, List.not_mem_nil] at hc <;>
    obtain ⟨a, ha, rfl⟩ := hc
  case morpheme m => exact (Morpheme.Built.facts hp).2.2 a ha
  case word w => exact Word.Built.morphemes hp a ha
  case clause c => exact Clause.Built.nodes hp a ha
  case sentence s => exact Sentence.Built.clause hp ha
  case superClause c => exact Clause.Built.nodes hp a ha
  case superSentence s => exact Sentence.Built.clause hp ha

namespace Expression.Built

theorem of_mem_children {x c : Expression} (hx : x.Built k) (hc : c ∈ x.children) : c.Built k := by
  cases hx <;> obtain ⟨a, ha, rfl⟩ := List.mem_map.1 hc
  case part hp => exact .part (hp.of_mem_children ha)
  case text ht => exact .part (ht.facts.built a ha)
  case hypertext hh =>
    obtain ⟨l, hl, hla⟩ := Hypertext.exists_link_of_mem_texts ha
    cases hh.link l hl with
    | along source target _ h =>
      obtain ⟨-, -, hsource, htarget⟩ := Hyperlink.along_eq_ok_iff.1 h
      rcases hla with rfl | rfl
      · exact .text (hsource ▸ source)
      · exact .text (htarget ▸ target)

theorem of_mem_below {x d : Expression} (hx : x.Built k) (hd : d ∈ x.below) : d.Built k := by
  induction x using induction with
  | step x ih =>
    obtain ⟨c, hc, rfl | hdc⟩ := mem_below_iff.1 hd
    · exact hx.of_mem_children hc
    · exact ih c hc (hx.of_mem_children hc) hdc

section Legible

variable (hk : k.Legible .canonical)

include hk

theorem beq_iff_level {x y : Expression} (hx : x.Built k) (hy : y.Built k) :
    (x == y) = true ↔ compare x y = .eq :=
  ((oneIdentity hk).beq_iff hx hy).trans ((oneIdentity hk).compare_iff hx hy).symm

/-- Level expressions have level children. -/
theorem exists_level_child {x y c : Expression} (hx : x.Built k) (hy : y.Built k)
    (h : compare x y = .eq) (hc : c ∈ x.children) : ∃ c' ∈ y.children, compare c c' = .eq := by
  have hkind := kind_eq_of_compare h
  rcases x with p | t | g <;> rcases y with q | u | g' <;> obtain ⟨a, ha, rfl⟩ := List.mem_map.1 hc
  case part.part =>
    obtain ⟨b, hb, hab⟩ := exists_mem_of_forall₂ (Part.children_alike h) ha
    exact ⟨.part b, List.mem_map_of_mem hb, hab⟩
  case text.text =>
    obtain ⟨b, hb, hab⟩ := exists_mem_of_forall₂ (Text.compare_eq_iff.1 h) ha
    cases hx with
    | text ht =>
      cases hy with
      | text hu =>
        have hlevel := Proposition.level_toPart hk (ht.facts.built a ha) (hu.facts.built b hb) hab
        exact ⟨.part b.toPart, List.mem_map_of_mem hb, hlevel⟩
  case hypertext.hypertext =>
    obtain ⟨b, hb, hab⟩ := Hypertext.exists_level_text h ha
    exact ⟨.text b, List.mem_map_of_mem hb, hab⟩
  all_goals first
    | cases hkind
    | cases p <;> cases hkind
    | cases q <;> cases hkind

/-- **Level expressions have level things below them.** -/
theorem exists_level_below {x y d : Expression} (hx : x.Built k) (hy : y.Built k)
    (h : compare x y = .eq) (hd : d ∈ x.below) : ∃ e ∈ y.below, compare d e = .eq := by
  induction x using induction generalizing y with
  | step x ih =>
    obtain ⟨c, hc, hdc⟩ := mem_below_iff.1 hd
    obtain ⟨c', hc', hlevel⟩ := hx.exists_level_child hk hy h hc
    rcases hdc with rfl | hdc
    · exact ⟨c', mem_below_iff.2 ⟨c', hc', .inl rfl⟩, hlevel⟩
    · obtain ⟨e, he, hde⟩ :=
        ih c hc (hx.of_mem_children hc) (hy.of_mem_children hc') hlevel hdc
      exact ⟨e, mem_below_iff.2 ⟨c', hc', .inr he⟩, hde⟩

theorem contains_iff_level {x n : Expression} (hx : x.Built k) (hn : n.Built k)
    (htext : n.kind ≠ .text) : x.contains n = true ↔ ∃ d ∈ x.below, compare d n = .eq := by
  rw [contains_iff htext]
  exact exists_congr fun d => and_congr_right fun hd =>
    (hx.of_mem_below hd).beq_iff_level hk hn

end Legible

end Expression.Built

/-! ## Chains -/

namespace Expression

/-- A chain from `x` down to `n`, up to equality: at least two expressions, each a child of the one
before. -/
structure Descent (k : Stock) (x n : Expression) (steps : List Expression) : Prop where
  built : ∀ o ∈ steps, o.Built k
  two_le : 2 ≤ steps.length
  first : ∃ o, steps.head? = some o ∧ (o == x) = true
  last : ∃ o, steps.getLast? = some o ∧ (o == n) = true
  descends : steps.IsChain fun o c => o.hasChild c = true

/-- Children lead down to everything below. -/
theorem exists_chain_of_mem_below {x d : Expression} (h : d ∈ x.below) :
    ∃ c ∈ x.children, ∃ rest, (c :: rest).getLast? = some d ∧ (∀ o ∈ c :: rest, o ∈ x.below) ∧
      (c :: rest).IsChain fun o c => c ∈ o.children := by
  induction x using induction with
  | step x ih =>
    obtain ⟨c, hc, hdc⟩ := mem_below_iff.1 h
    have hcx : c ∈ x.below := mem_below_iff.2 ⟨c, hc, .inl rfl⟩
    rcases hdc with rfl | hdc
    · exact ⟨d, hc, [], rfl, by simpa using hcx, .singleton d⟩
    · obtain ⟨c', hc', rest, hlast, hbelow, hchain⟩ := ih c hc hdc
      refine ⟨c, hc, c' :: rest, hlast, ?_, .cons_cons hc' hchain⟩
      exact List.forall_mem_cons.2 ⟨hcx, fun o ho => mem_below_trans hcx (hbelow o ho)⟩

section Legible

variable (hk : k.Legible .canonical)

include hk

/-- **What a chain leads to lies below its start**, up to equality. -/
theorem exists_below_of_isChain {s : Expression} : ∀ {rest : List Expression} {x : Expression},
    (x :: rest).IsChain (fun o c => o.hasChild c = true) → (∀ o ∈ x :: rest, o.Built k) →
      s ∈ rest → ∃ d ∈ x.below, compare d s = .eq
  | c :: rest, x, hchain, hbuilt, hs => by
    obtain ⟨hchild, hrest⟩ := List.isChain_cons_cons.1 hchain
    rw [List.forall_mem_cons] at hbuilt
    obtain ⟨hx, hbuilt⟩ := hbuilt
    have hc := hbuilt c List.mem_cons_self
    obtain ⟨c', hc', heq⟩ := exists_child_of_hasChild hchild
    have hlevel := ((hx.of_mem_children hc').beq_iff_level hk hc).1 heq
    rcases List.mem_cons.1 hs with rfl | hs
    · exact ⟨c', mem_below_iff.2 ⟨c', hc', .inl rfl⟩, hlevel⟩
    · obtain ⟨d, hd, hds⟩ := exists_below_of_isChain hrest hbuilt hs
      obtain ⟨e, he, hde⟩ := hc.exists_level_below hk (hx.of_mem_children hc')
        (OrientedCmp.eq_symm hlevel) hd
      exact ⟨e, mem_below_iff.2 ⟨c', hc', .inr he⟩,
        TransCmp.eq_trans (OrientedCmp.eq_symm hde) hds⟩

/-- **Containment is reachability.** -/
theorem Built.contains_iff_exists_descent {x n : Expression} (hx : x.Built k)
    (htext : n.kind ≠ .text) : x.contains n = true ↔ ∃ steps, Descent k x n steps := by
  constructor
  · intro h
    obtain ⟨d, hd, hdn⟩ := (contains_iff htext).1 h
    obtain ⟨c, hc, rest, hlast, hbelow, hchain⟩ := exists_chain_of_mem_below hd
    refine ⟨x :: c :: rest, ?_, ?_, ⟨x, rfl, beq_self x⟩, ⟨d, ?_, hdn⟩, ?_⟩
    · exact List.forall_mem_cons.2 ⟨hx, fun o ho => hx.of_mem_below (hbelow o ho)⟩
    · simp
    · rwa [List.getLast?_cons_cons]
    · exact .cons_cons (hasChild_of_mem hc) (hchain.imp fun _ _ => hasChild_of_mem)
  · rintro ⟨steps, hbuilt, htwo, ⟨o, ho, hox⟩, ⟨s, hs, hsn⟩, hchain⟩
    match steps with
    | o' :: c :: rest =>
      obtain rfl : o' = o := by simpa using ho
      rw [List.getLast?_cons_cons] at hs
      have hmem := List.mem_of_getLast? hs
      have ho' := hbuilt o' List.mem_cons_self
      have hs' := hbuilt s (List.mem_cons_of_mem _ hmem)
      obtain ⟨d, hd, hds⟩ := exists_below_of_isChain hk hchain hbuilt hmem
      obtain ⟨e, he, hde⟩ := ho'.exists_level_below hk hx ((ho'.beq_iff_level hk hx).1 hox) hd
      have hstext : s.kind ≠ .text := (beq_iff.1 hsn).1 ▸ htext
      have hcontains := (hx.contains_iff_level hk hs' hstext).2
        ⟨e, he, TransCmp.eq_trans (OrientedCmp.eq_symm hde) hds⟩
      exact contains_congr hstext hsn hcontains

end Legible

end Expression

/-! ## Ways that links follow -/

theorem Path.getLast?_steps (path : Path) : path.steps.getLast? = some path.target := by
  rw [steps, List.getLast?_cons, target, List.getLastD_eq_getLast?]

/-- A part that is of the kind of a proposition is one. -/
theorem Proposition.exists_toPart_eq {m : Proposition} {p : Part} (h : p.kind = m.kind) :
    ∃ q : Proposition, q.toPart = p := by
  cases m <;> cases p <;> cases h
  · exact ⟨.word _, rfl⟩
  · exact ⟨.sentence _, rfl⟩
  · exact ⟨.superSentence _, rfl⟩

/-- Below a part are parts. -/
theorem Expression.exists_parts_of_isChain : ∀ {rest : List Expression} {p : Part},
    (part p :: rest).IsChain (fun o c => o.hasChild c = true) → ∃ ps : List Part, rest = ps.map part
  | [], _, _ => ⟨[], rfl⟩
  | x :: rest, p, h => by
    obtain ⟨hchild, hrest⟩ := List.isChain_cons_cons.1 h
    obtain ⟨_, hc, heq⟩ := exists_child_of_hasChild hchild
    obtain ⟨c, -, rfl⟩ := List.mem_map.1 hc
    have hkind := (beq_iff.1 heq).1
    cases x with
    | part q =>
      obtain ⟨ps, rfl⟩ := exists_parts_of_isChain hrest
      exact ⟨q :: ps, rfl⟩
    | text u => cases c <;> cases hkind
    | hypertext h => cases c <;> cases hkind

/-- **A link follows every path that starts on a member of its source.** -/
theorem Path.Built.exists_along_iff {path : Path} (h : path.Built k) {source target : Text} :
    (∃ l, Hyperlink.along source target path = .ok l) ↔ path.isReachableIn source = true := by
  refine ⟨fun ⟨l, hl⟩ => (Hyperlink.along_eq_ok_iff.1 hl).1, fun hreach => ?_⟩
  obtain ⟨first, rest⟩ := path
  obtain ⟨_, hm, heq⟩ := Expression.exists_child_of_hasChild hreach
  obtain ⟨m, -, rfl⟩ := List.mem_map.1 hm
  have hkind := (Expression.beq_iff.1 heq).1
  cases first with
  | part p =>
    obtain ⟨q, rfl⟩ := Proposition.exists_toPart_eq (m := m) hkind.symm
    obtain ⟨ps, rfl⟩ := Expression.exists_parts_of_isChain h.facts.2
    have hanchor := Anchor.anchor?_path ⟨q, ps⟩
    exact ⟨⟨source, target, ⟨q, ps⟩⟩, Hyperlink.along_eq_ok_iff.2 ⟨hreach, hanchor, rfl, rfl⟩⟩
  | text u => cases m <;> cases hkind
  | hypertext h => cases m <;> cases hkind

section Legible

variable (hk : k.Legible .canonical)

include hk

/-- **The source of a link contains every step of its way.** -/
theorem Path.Built.contains_of_along {path : Path} (h : path.Built k) {source target : Text}
    (hs : source.Built k) {l : Hyperlink} (hl : Hyperlink.along source target path = .ok l)
    {x : Expression} (hx : x ∈ path.steps) : Expression.contains (.text source) x = true := by
  obtain ⟨hreach, hanchor, -, -⟩ := Hyperlink.along_eq_ok_iff.1 hl
  obtain ⟨hbuilt, hchain⟩ := h.facts
  have hpart : x.kind ≠ .text := by
    rw [Path.steps_of_anchor? hanchor] at hx
    obtain ⟨p, -, rfl⟩ := List.mem_map.1 hx
    exact Expression.part_kind_ne_text p
  obtain ⟨d, hd, hdx⟩ := Expression.exists_below_of_isChain hk (.cons_cons hreach hchain)
    (List.forall_mem_cons.2 ⟨.text hs, hbuilt⟩) hx
  have hsource : (Expression.text source).Built k := .text hs
  exact (hsource.contains_iff_level hk (hbuilt x hx) hpart).2 ⟨d, hd, hdx⟩

/-- **A text contains what links may lead to.** -/
theorem Text.Built.contains_iff_exists_along {t : Text} (ht : t.Built k) (target : Text)
    {n : Expression} (htext : n.kind ≠ .text) :
    Expression.contains (.text t) n = true ↔ ∃ path l, Path.Built k path ∧
      (path.target == n) = true ∧ Hyperlink.along t target path = .ok l := by
  have hbuilt : (Expression.text t).Built k := .text ht
  constructor
  · intro h
    obtain ⟨d, hd, hdn⟩ := (Expression.contains_iff htext).1 h
    obtain ⟨c, hc, rest, hlast, hbelow, hchain⟩ := Expression.exists_chain_of_mem_below hd
    have hpath : Path.Built k ⟨c, rest⟩ :=
      .ofSteps (fun o ho => hbuilt.of_mem_below (hbelow o ho)) (Path.ofSteps_eq_ok_iff.2
        ⟨rfl, hchain.imp fun _ _ => Expression.hasChild_of_mem⟩)
    have hlink : ∃ l, Hyperlink.along t target ⟨c, rest⟩ = .ok l :=
      hpath.exists_along_iff.2 (Expression.hasChild_of_mem hc)
    obtain ⟨l, hl⟩ := hlink
    refine ⟨⟨c, rest⟩, l, hpath, ?_, hl⟩
    obtain rfl := Option.some.inj (hlast.symm.trans (Path.getLast?_steps ⟨c, rest⟩))
    exact hdn
  · rintro ⟨path, l, hpath, htarget, hl⟩
    have hmem := List.mem_of_getLast? path.getLast?_steps
    have hkind := (Expression.beq_iff.1 htarget).1
    exact Expression.contains_congr (hkind ▸ htext) htarget (hpath.contains_of_along hk ht hl hmem)

/-! ## Containment goes through -/

namespace Expression.Built

theorem contains_trans_of_not_text {x y z : Expression} (hx : x.Built k) (hy : y.Built k)
    (hz : z.Built k) (hytext : y.kind ≠ .text) (hztext : z.kind ≠ .text)
    (hxy : x.contains y = true) (hyz : y.contains z = true) : x.contains z = true := by
  obtain ⟨d, hd, hdy⟩ := (hx.contains_iff_level hk hy hytext).1 hxy
  obtain ⟨e, he, hez⟩ := (hy.contains_iff_level hk hz hztext).1 hyz
  obtain ⟨e', he', hlevel⟩ :=
    hy.exists_level_below hk (hx.of_mem_below hd) (OrientedCmp.eq_symm hdy) he
  exact (hx.contains_iff_level hk hz hztext).2
    ⟨e', mem_below_trans hd he', TransCmp.eq_trans (OrientedCmp.eq_symm hlevel) hez⟩

omit hk in
theorem text_contains_text_iff {t u : Text} : contains (.text t) (.text u) = true ↔
    ∀ m ∈ u.members, contains (.text t) (.part m.toPart) = true := List.all_eq_true

theorem contains_trans_text_of_not_text {t u : Text} {z : Expression} (ht : t.Built k)
    (hu : u.Built k) (hz : z.Built k) (hztext : z.kind ≠ .text)
    (htu : contains (.text t) (.text u) = true) (huz : contains (.text u) z = true) :
    contains (.text t) z = true := by
  obtain ⟨_, hm, hmz⟩ := (contains_iff_children hztext).1 huz
  obtain ⟨m, hmem, rfl⟩ := List.mem_map.1 hm
  have htm := text_contains_text_iff.1 htu m hmem
  have hmtext := part_kind_ne_text m.toPart
  rcases hmz with heq | hmz
  · exact contains_congr hmtext heq htm
  · exact contains_trans_of_not_text hk (.text ht) (.part (hu.facts.built m hmem)) hz hmtext hztext
      htm hmz

/-- What a text contains goes through a text in it. -/
theorem contains_trans_text {t u : Text} {z : Expression} (ht : t.Built k) (hu : u.Built k)
    (hz : z.Built k) (htu : contains (.text t) (.text u) = true)
    (huz : contains (.text u) z = true) : contains (.text t) z = true := by
  cases hz with
  | @part r hr =>
    exact contains_trans_text_of_not_text hk ht hu (.part hr) (part_kind_ne_text r) htu huz
  | @text v hv =>
    refine text_contains_text_iff.2 fun m hm => ?_
    exact contains_trans_text_of_not_text hk ht hu (.part (hv.facts.built m hm))
      (part_kind_ne_text _) htu (text_contains_text_iff.1 huz m hm)
  | hypertext => cases huz

/-- **What an expression contains, it contains through whatever it contains.** -/
theorem contains_trans {x y z : Expression} (hx : x.Built k) (hy : y.Built k) (hz : z.Built k)
    (hxy : x.contains y = true) (hyz : y.contains z = true) : x.contains z = true := by
  cases hy with
  | @part q hq =>
    have hztext : z.kind ≠ .text := by
      cases z with
      | part r => exact part_kind_ne_text r
      | text v => cases hyz
      | hypertext h => exact Kind.noConfusion
    exact contains_trans_of_not_text hk hx (.part hq) hz (part_kind_ne_text q) hztext hxy hyz
  | text hu =>
    cases hx with
    | part => cases hxy
    | text ht => exact contains_trans_text hk ht hu hz hxy hyz
    | hypertext hh =>
      -- a text in a hypertext is in one of its texts
      obtain ⟨t, ht, htu⟩ := List.any_eq_true.1 hxy
      cases of_mem_children (.hypertext hh) (List.mem_map_of_mem ht) with
      | text built =>
        exact List.any_eq_true.2 ⟨t, ht, contains_trans_text hk built hu hz htu hyz⟩
  | hypertext =>
    cases x with
    | part => cases hxy
    | text => cases hxy
    | hypertext h =>
      obtain ⟨t, -, hty⟩ := List.any_eq_true.1 hxy
      cases hty

end Expression.Built

end Legible

/-! ## Containment is reachability -/

/-- **Containment is reachability**, for expressions of all kinds over the terms of any
dictionaries. -/
theorem containment_is_reachability :
    (∀ {x n : Expression}, x.Built .issued → n.kind ≠ .text →
        (x.contains n = true ↔ ∃ steps, Expression.Descent .issued x n steps)) ∧
      (∀ {t : Text} {n : Expression} (target : Text), t.Built .issued → n.kind ≠ .text →
        (Expression.contains (.text t) n = true ↔ ∃ path l, Path.Built .issued path ∧
          (path.target == n) = true ∧ Hyperlink.along t target path = .ok l)) ∧
      (∀ {source target : Text} {path : Path} {l : Hyperlink}, source.Built .issued →
        path.Built .issued → Hyperlink.along source target path = .ok l →
          ∀ x ∈ path.steps, Expression.contains (.text source) x = true) ∧
      (∀ {t u : Text}, Expression.contains (.text t) (.text u) = true ↔
        ∀ m ∈ u.members, Expression.contains (.text t) (.part m.toPart) = true) ∧
      ∀ {x y z : Expression}, x.Built .issued → y.Built .issued → z.Built .issued →
        x.contains y = true → y.contains z = true → x.contains z = true := by
  have hk := Stock.legible_issued
  exact ⟨fun hx htext => hx.contains_iff_exists_descent hk htext,
    fun target ht htext => ht.contains_iff_exists_along hk target htext,
    fun hs hpath hl _ hx => hpath.contains_of_along hk hs hl hx,
    Expression.Built.text_contains_text_iff,
    fun hx hy hz hxy hyz => hx.contains_trans hk hy hz hxy hyz⟩

/-- A term in a text of one word, and the way to it. -/
theorem containment_is_reachability_noun : ∃ (t : Text) (x : Expression), t.Built .issued ∧
    x.kind ≠ .text ∧ Expression.contains (.text t) x = true ∧
      (∃ steps, Expression.Descent .issued (.text t) x steps) ∧
      ∃ path l, Path.Built .issued path ∧ (path.target == x) = true ∧
        Hyperlink.along t t path = .ok l := by
  have hnoun : Stock.issued.term (Sample.noun "a." 0) :=
    ⟨Sample.dictionary, Sample.accepted, List.mem_cons_self⟩
  let w := Sample.word (Sample.noun "a." 0) [.ofText "here"]
  have hw : w.Built .issued := Sample.word_built hnoun fun _ _ => trivial
  have hmembers : ∀ p ∈ [Proposition.word w], p.toPart.Built .issued := fun p hp => by
    obtain rfl := List.mem_singleton.1 hp
    exact hw
  have ht : Text.Built .issued ⟨[.word w]⟩ := .ofPropositions hmembers rfl
  have htext : (Expression.part (.term (Sample.noun "a." 0))).kind ≠ .text := by decide
  have hcontains : Expression.contains (.text ⟨[.word w]⟩) (.part (.term (Sample.noun "a." 0))) =
      true := by decide
  exact ⟨_, _, ht, htext, hcontains, (containment_is_reachability.1 (.text ht) htext).1 hcontains,
    (containment_is_reachability.2.1 _ ht htext).1 hcontains⟩

end Metalanguage
