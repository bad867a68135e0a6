import Metalanguage.Proofs.Expression.Built

/-!
# Proofs/Expression/Linked — what texts, links and hypertexts promise

However a text was built, its members are at least one, in increasing order and built themselves
(`Text.Built.facts`), and the text of expressions is the set of the propositions that they list
(`Text.ofExpressions_eq_ok_iff`). A link starts on a member of its source and goes down from there,
each step to a child of the step before (`Hyperlink.Built.facts`), and a hypertext holds such links,
at least one and in increasing order (`Hypertext.Built.facts`).
-/

namespace Metalanguage

open Std Ordered

variable {k : Stock}

/-! ## Texts -/

/-- A part that is a proposition is that proposition. -/
theorem Proposition.toPart_of_ofPart? {q : Part} {p : Proposition}
    (h : Proposition.ofPart? q = some p) : p.toPart = q := by
  cases q <;> cases h <;> rfl

theorem Text.ofSet_eq_ok_iff {l : List Proposition} {t : Text} :
    Text.ofSet l = .ok t ↔ l ≠ [] ∧ t.members = l := by
  obtain ⟨members⟩ := t
  cases l with
  | nil => simp [ofSet]
  | cons p l => simp [ofSet, eq_comm]

/-! ### What expressions list -/

/-- The propositions that an expression lists: itself, or the members of a text. -/
def Expression.listed : Expression → List Proposition
  | .part p => (Proposition.ofPart? p).toList
  | .text t => t.members
  | .hypertext _ => []

namespace Text

/-- The kinds of expressions that texts are made of. -/
def constituents : List Kind := [.word, .sentence, .superSentence, .text]

/-- The propositions that expressions list, one expression after the other. -/
def listed (children : List Expression) : List Proposition := children.flatMap (·.listed)

/-- Propositions list themselves, texts their members, and nothing else can be listed. -/
theorem propositionsOf_eq_ok_iff {x : Expression} {ps : List Proposition} :
    propositionsOf x = .ok ps ↔ x.kind ∈ constituents ∧ x.listed = ps := by
  rcases x with p | t | h
  · cases p <;>
      simp [propositionsOf, Proposition.ofPart?, Expression.listed, Expression.kind, Part.kind,
        constituents]
  · simp [propositionsOf, Expression.listed, Expression.kind, constituents]
  · simp [propositionsOf, Expression.kind, constituents]

/-- All of several expressions must be of such a kind. -/
theorem mapM_propositionsOf_eq_ok_iff {children : List Expression}
    {lists : List (List Proposition)} :
    children.mapM propositionsOf = .ok lists ↔
      (∀ x ∈ children, x.kind ∈ constituents) ∧ children.map (·.listed) = lists := by
  rw [mapM_eq_ok_iff]
  simp only [propositionsOf_eq_ok_iff]
  have hlists : children.map (·.listed) = lists ↔
      List.Forall₂ (fun (x : Expression) ps => x.listed = ps) children lists := by
    rw [← List.forall₂_map_left_iff (f := fun x : Expression => x.listed) (R := Eq),
      List.forall₂_eq_eq_eq]
  rw [List.forall₂_and_left, hlists]

/-- **The text of expressions is the set of what they list**, the first of equals kept. -/
theorem ofExpressions_eq_ok_iff {children : List Expression} {t : Text} :
    ofExpressions children = .ok t ↔ (∀ x ∈ children, x.kind ∈ constituents) ∧
      keepFirst compare (listed children) ≠ [] ∧
      t.members = keepFirst compare (listed children) := by
  rw [ofExpressions, bind_eq_ok_iff]
  simp only [mapM_propositionsOf_eq_ok_iff, gather, ofSet_eq_ok_iff, listed, List.flatMap_def]
  constructor
  · rintro ⟨_, ⟨hkinds, rfl⟩, ht⟩
    exact ⟨hkinds, ht⟩
  · rintro ⟨hkinds, ht⟩
    exact ⟨_, ⟨hkinds, rfl⟩, ht⟩

end Text

/-- **The members of a text**: at least one, in increasing order, all of them built. -/
structure Text.Facts (k : Stock) (t : Text) : Prop where
  ne_nil : t.members ≠ []
  increasing : Increasing compare t.members
  built : ∀ p ∈ t.members, p.toPart.Built k

/-- **Either way to build a text** makes a set of members that are built. -/
theorem Text.Built.facts {t : Text} (h : t.Built k) : t.Facts k := by
  induction h with
  | @ofExpressions children t parts texts h ih =>
    obtain ⟨-, hne, hmembers⟩ := ofExpressions_eq_ok_iff.1 h
    rw [← hmembers] at hne
    refine ⟨hne, hmembers ▸ increasing_keepFirst _, fun p hp => ?_⟩
    obtain ⟨x, hx, hpx⟩ := List.mem_flatMap.1 (mem_of_mem_keepFirst (hmembers ▸ hp))
    rcases x with q | u | _
    · exact Proposition.toPart_of_ofPart? (Option.mem_toList.1 hpx) ▸ parts q hx
    · exact (ih u hx).built p hpx
    · cases hpx
  | @ofPropositions members t parts h =>
    obtain ⟨hne, hmembers⟩ := ofSet_eq_ok_iff.1 h
    rw [← hmembers] at hne
    exact ⟨hne, hmembers ▸ increasing_keepLast _, fun p hp =>
      parts p (mem_of_mem_keepLast (hmembers ▸ hp))⟩

/-! ## Ways and links -/

/-- A step to a part is to a child of the part before. -/
theorem Expression.hasChild_part (p q : Part) :
    Expression.hasChild (.part p) (.part q) = p.hasChild q := rfl

/-- A path that starts on a member starts on a proposition level with one of the text. -/
theorem Path.isReachableIn_iff {path : Path} {t : Text} {p : Proposition}
    (h : path.first = .part p.toPart) :
    path.isReachableIn t = true ↔ ∃ m ∈ t.members, compare m p = .eq := by
  rw [isReachableIn, h, Expression.text_hasChild_iff]
  exact exists_congr fun m => and_congr_right fun _ => Proposition.compare_eq_iff_beq.symm

/-- The steps of a path that leads to a place are those of the place. -/
theorem Path.steps_of_anchor? {path : Path} {a : Anchor} (h : path.anchor? = some a) :
    path.steps = a.steps.map .part := by
  obtain ⟨first, rest⟩ := path
  rcases first with p | t | x
  · obtain ⟨member, hmember, h⟩ := Option.bind_eq_some_iff.1 h
    obtain ⟨descent, hdescent, h⟩ := Option.bind_eq_some_iff.1 h
    cases h
    have hrest := eq_map_of_mapM (g := Expression.part)
      (fun {x q} hq => by rcases x with x | x | x <;> cases hq; rfl) hdescent
    rw [steps, hrest, Anchor.steps, List.map_cons, Proposition.toPart_of_ofPart? hmember]
  · cases h
  · cases h

/-- **What a link promises**: its way starts on a member of the source and goes down from there. -/
structure Hyperlink.Facts (k : Stock) (l : Hyperlink) : Prop where
  source : l.source.Facts k
  target : l.target.Facts k
  steps : ∀ p ∈ l.anchor.steps, p.Built k
  member : ∃ p ∈ l.source.members, compare p l.anchor.member = .eq
  descends : l.anchor.steps.IsChain fun p q => p.hasChild q = true

/-- **A path is a chain**: each step but the first is a child of the one before. -/
theorem Path.ofSteps_eq_ok_iff {steps : List Expression} {path : Path} :
    Path.ofSteps steps = .ok path ↔
      path.steps = steps ∧ steps.IsChain fun x y => x.hasChild y = true := by
  obtain ⟨first', rest'⟩ := path
  cases steps with
  | nil => simp [ofSteps, Path.steps]
  | cons first rest =>
    have hchain : neighbours? (fun x y => !x.hasChild y) (first :: rest) = none ↔
        (first :: rest).IsChain fun x y => x.hasChild y = true := by
      rw [neighbours?_eq_none_iff]
      simp
    rw [ofSteps, ← hchain, Path.steps, List.cons.injEq]
    split
    · next hnone => rw [hnone]; simp
    · next hnone => rw [hnone]; simp [eq_comm]

/-- **A link is made** along a path that starts in its source and has parts for steps. -/
theorem Hyperlink.along_eq_ok_iff {source target : Text} {path : Path} {l : Hyperlink} :
    Hyperlink.along source target path = .ok l ↔
      path.isReachableIn source = true ∧ path.anchor? = some l.anchor ∧ l.source = source ∧
        l.target = target := by
  obtain ⟨source', target', anchor'⟩ := l
  rw [along]
  split
  · next hreach hanchor => simp [hreach, hanchor, eq_comm, and_comm, and_left_comm]
  · next hno =>
    refine ⟨nofun, ?_⟩
    rintro ⟨hreach, hanchor, -, -⟩
    exact absurd hanchor (hno _ hreach)

/-- The steps of a link are a path that the link can be made along. -/
theorem Anchor.anchor?_path (a : Anchor) : a.path.anchor? = some a := by
  simp only [Anchor.path, Path.anchor?, Proposition.ofPart?_toPart]
  rw [mapM_map_eq_some (g := Expression.part)]
  · rfl
  · exact fun _ => rfl

/-- The link along a place in a text is there if the place starts on a member. -/
theorem Anchor.along_eq {a : Anchor} {source : Text} (target : Text)
    (h : ∃ m ∈ source.members, compare m a.member = .eq) :
    Hyperlink.along source target a.path = .ok ⟨source, target, a⟩ :=
  Hyperlink.along_eq_ok_iff.2 ⟨(Path.isReachableIn_iff rfl).2 h, a.anchor?_path, rfl, rfl⟩

/-- A path that is built is such a chain, of steps that are built. -/
theorem Path.Built.facts {path : Path} (h : path.Built k) :
    (∀ x ∈ path.steps, x.Built k) ∧ path.steps.IsChain fun x y => x.hasChild y = true := by
  cases h with
  | ofSteps built h =>
    obtain ⟨rfl, hchain⟩ := ofSteps_eq_ok_iff.1 h
    exact ⟨built, hchain⟩

/-- A link that is built keeps its path as its steps. -/
theorem Hyperlink.Built.facts {l : Hyperlink} (h : l.Built k) : l.Facts k := by
  cases h with
  | along source target path h =>
    obtain ⟨hreach, hanchor, rfl, rfl⟩ := along_eq_ok_iff.1 h
    have hsteps := Path.steps_of_anchor? hanchor
    obtain ⟨hbuilt, hchain⟩ := path.facts
    rw [hsteps] at hbuilt hchain
    refine ⟨source.facts, target.facts, fun p hp => ?_, ?_, ?_⟩
    · cases hbuilt _ (List.mem_map_of_mem hp) with
      | part h => exact h
    · exact (Path.isReachableIn_iff (List.cons.inj hsteps).1).1 hreach
    · rw [List.isChain_map] at hchain
      exact hchain.imp fun p q hpq => by rwa [← Expression.hasChild_part]

/-! ## Hypertexts -/

/-- **The links of a hypertext**: at least one, in increasing order, all of them built. -/
structure Hypertext.Facts (k : Stock) (h : Hypertext) : Prop where
  ne_nil : h.links ≠ []
  increasing : Increasing compare h.links
  links : ∀ l ∈ h.links, l.Facts k

/-- A hypertext needs a link, and keeps the last of equal ones. -/
theorem Hypertext.ofLinks_eq_ok_iff {links : List Hyperlink} {h : Hypertext} :
    Hypertext.ofLinks links = .ok h ↔ links ≠ [] ∧ h.links = keepLast compare links := by
  obtain ⟨links'⟩ := h
  cases links with
  | nil => simp [ofLinks]
  | cons l links =>
    rw [ofLinks]
    split
    · next hnil => exact absurd hnil (insertNew_ne_nil compare l _)
    · simp [eq_comm]

/-- Its links are built, those that were added among them ... -/
theorem Hypertext.Built.link : ∀ {h : Hypertext}, h.Built k → ∀ l ∈ h.links, l.Built k
  | _, .ofLinks built eq => fun l hl => by
    rw [(ofLinks_eq_ok_iff.1 eq).2] at hl
    exact built l (mem_of_mem_keepLast hl)
  | _, .addLink hypertext link => fun l hl => by
    rcases mem_insertNew hl with rfl | hl
    · exact link
    · exact hypertext.link l hl

/-- ... and in order, wherever one was added. -/
theorem Hypertext.Built.increasing : ∀ {h : Hypertext}, h.Built k → Increasing compare h.links
  | _, .ofLinks _ eq => (ofLinks_eq_ok_iff.1 eq).2 ▸ increasing_keepLast _
  | _, .addLink hypertext _ => increasing_insertNew _ hypertext.increasing

theorem Hypertext.Built.facts {h : Hypertext} (hh : h.Built k) : h.Facts k where
  ne_nil := by
    cases hh with
    | ofLinks built eq =>
      obtain ⟨hne, hlinks⟩ := ofLinks_eq_ok_iff.1 eq
      obtain ⟨l, hl⟩ := List.exists_mem_of_ne_nil _ hne
      obtain ⟨l', hl', -⟩ := exists_mem_keepLast compare hl
      exact List.ne_nil_of_mem (hlinks ▸ hl')
    | addLink => exact insertNew_ne_nil _ _ _
  increasing := hh.increasing
  links l hl := (hh.link l hl).facts

/-! ## Links by their places -/

namespace Hypertext

/-- The links that start on a member of a source text. -/
def linksFrom (h : Hypertext) (source : Text) (p : Proposition) : List Hyperlink :=
  (h.links.filter fun l => compare l.source source == .eq).filter fun l => p == l.anchor.member

/-- Source and member are asked for by order, so that equal ones may stand for each other. -/
theorem mem_linksFrom {h : Hypertext} {source : Text} {p : Proposition} {l : Hyperlink} :
    l ∈ h.linksFrom source p ↔
      l ∈ h.links ∧ compare l.source source = .eq ∧ compare p l.anchor.member = .eq := by
  rw [linksFrom, List.mem_filter, List.mem_filter, Proposition.compare_eq_iff_beq, and_assoc,
    beq_iff_eq]

theorem exists_link_of_mem_sources {h : Hypertext} {source : Text} (hs : source ∈ h.sources) :
    ∃ l ∈ h.links, l.source = source := List.mem_map.1 (mem_of_mem_keepFirst hs)

/-- **Every link has its place** among the sources and their members. -/
theorem Facts.exists_place {h : Hypertext} (hh : h.Facts k) {l : Hyperlink} (hl : l ∈ h.links) :
    ∃ source ∈ h.sources, ∃ p ∈ source.members, l ∈ h.linksFrom source p := by
  obtain ⟨source, hsource, hlsource⟩ :=
    exists_mem_keepFirst compare (List.mem_map_of_mem (f := (·.source)) hl)
  obtain ⟨m, hm, hml⟩ := (hh.links l hl).member
  obtain ⟨p, hp, hmp⟩ := exists_mem_of_forall₂ (Text.compare_eq_iff.1 hlsource) hm
  have hpl : compare p l.anchor.member = .eq := TransCmp.eq_trans (OrientedCmp.eq_symm hmp) hml
  exact ⟨source, hsource, p, hp, mem_linksFrom.2 ⟨hl, hlsource, hpl⟩⟩

theorem Facts.sources_ne_nil {h : Hypertext} (hh : h.Facts k) : h.sources ≠ [] := by
  obtain ⟨l, hl⟩ := List.exists_mem_of_ne_nil _ hh.ne_nil
  obtain ⟨source, hsource, -⟩ := hh.exists_place hl
  exact List.ne_nil_of_mem hsource

end Hypertext

end Metalanguage
