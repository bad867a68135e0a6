import Mathlib.Data.Sum.Basic
import Metalanguage.Grammar.Productions
import Metalanguage.Proofs.Grammar.Derivation
import Metalanguage.Proofs.Reader.Outcomes

/-!
# Proofs/Grammar/Change — derivations that differ in what may differ

A `Change` of a grammar relates derivations of it that differ in what a `Variation` leaves open, and
relates at least those that are the same without literals (`Grammar.bare`). Each way to combine
grammars combines their changes: lists keep the order of their entries unless that may differ, and
sets their entries. So each rule of the grammar has one change, up to `anyExpressionChange`.

A change `Carries` a relation to values when related derivations give related ones.
-/

namespace Metalanguage

open List (Forall₂)

namespace Grammar

variable {α β : Type}

/-! ## Without literals -/

/-- Whether a grammar is that of a literal. -/
def isLiteral : {α : Type} → Grammar α → Bool
  | _, .literal => true
  | _, .named _ body => isLiteral body
  | _, _ => false

/-- **A derivation without its lists of literals**, where literals may differ. -/
def bare (v : Variation) : {α : Type} → (g : Grammar α) → g.Derivation → g.Derivation
  | _, .empty, t => t
  | _, .mark _, t => t
  | _, .script, t => t
  | _, .literal, t => t
  | _, .finish, t => t
  | _, .seq first second, t => (bare v first t.1, bare v second t.2)
  | _, .either first second, t => Sum.map (bare v first) (bare v second) t
  | _, .many body, ts =>
    if v = .literals ∧ body.isLiteral = true then [] else List.map (bare v body) ts
  | _, .named _ body, t => bare v body t
  | _, .placed body, t => bare v body t
  | _, .map _ body, t => bare v body t

end Grammar

/-! ## Changes -/

/-- **A relation between derivations** that differ in what may differ. -/
structure Change (v : Variation) {α : Type} (g : Grammar α) where
  rel : g.Derivation → g.Derivation → Prop
  of_bare : ∀ {t u}, g.bare v t = g.bare v u → rel t u

namespace Change

variable {α β : Type} {v : Variation} {g : Grammar α} {g' : Grammar β}

/-- The empty text has one derivation. -/
def empty : Change v .empty := ⟨fun _ _ => True, fun _ => trivial⟩

/-- Scripts must not differ. -/
def script : Change v .script := ⟨Eq, id⟩

/-- Literals, one after the other. -/
def literals (rule : Rule) : Change v (.many (.named rule .literal)) where
  rel t u := v = .literals ∨ t = u
  of_bare {t u} h := by
    by_cases hv : v = .literals
    · exact .inl hv
    · have hid : ∀ ts : List (List LiteralPiece),
          (Grammar.many (.named rule .literal)).bare v ts = ts := fun ts =>
        (if_neg fun hlit => hv hlit.1).trans (List.map_id ts)
      exact .inr ((hid t).symm.trans (h.trans (hid u)))

/-- Texts in a row change each by itself. -/
def seq (d : Change v g) (d' : Change v g') : Change v (.seq g g') where
  rel t u := d.rel t.1 u.1 ∧ d'.rel t.2 u.2
  of_bare h := ⟨d.of_bare (congrArg Prod.fst h), d'.of_bare (congrArg Prod.snd h)⟩

/-- A change does not lead from one alternative to the other: which of two forms a text has is no
matter of order or literals. -/
def either {g' : Grammar α} (d : Change v g) (d' : Change v g') : Change v (.either g g') where
  rel := Sum.LiftRel d.rel d'.rel
  of_bare {t u} h := by
    cases t <;> cases u
    · exact .inl (d.of_bare (Sum.inl.inj h))
    · cases h
    · cases h
    · exact .inr (d'.of_bare (Sum.inr.inj h))

def named (rule : Rule) (d : Change v g) : Change v (.named rule g) := ⟨d.rel, d.of_bare⟩

def placed (d : Change v g) : Change v (.placed g) := ⟨d.rel, d.of_bare⟩

def map (f : α → β) (d : Change v g) : Change v (.map f g) := ⟨d.rel, d.of_bare⟩

/-- What is read and forgotten has no say. -/
def seqRight (first : Grammar β) (d : Change v g) : Change v (.seqRight first g) where
  rel t u := d.rel t.2 u.2
  of_bare h := d.of_bare (congrArg Prod.snd h)

def between (opening closing : Char) (d : Change v g) : Change v (.between opening closing g) where
  rel t u := d.rel t.2.1 u.2.1
  of_bare h := d.of_bare (congrArg (fun t => t.2.1) h)

def optional (d : Change v g) : Change v (.optional g) := .either (.map _ d) (.map _ .empty)

/-- Lists that are the same entry by entry without literals are related entry by entry. -/
theorem forall₂_of_bare (d : Change v g) {ts us : List g.Derivation}
    (h : ts.map (g.bare v) = us.map (g.bare v)) : Forall₂ d.rel ts us := by
  rw [← List.forall₂_eq_eq_eq, List.forall₂_map_left_iff, List.forall₂_map_right_iff] at h
  exact h.imp fun _ _ => d.of_bare

/-- Only a list of literals is emptied. Any other one loses those within its entries. -/
theorem bare_many (hg : g.isLiteral = false) (ts : List g.Derivation) :
    (Grammar.many g).bare v ts = ts.map (g.bare v) := if_neg fun h => by simp [hg] at h

theorem map_bare_eq (hg : g.isLiteral = false) {ts us : List g.Derivation}
    (h : (Grammar.many g).bare v ts = (Grammar.many g).bare v us) :
    ts.map (g.bare v) = us.map (g.bare v) :=
  (bare_many hg ts).symm.trans (h.trans (bare_many hg us))

/-- Any number of texts, one after the other. -/
def many (hg : g.isLiteral = false) (d : Change v g) : Change v (.many g) where
  rel := Forall₂ d.rel
  of_bare h := d.forall₂_of_bare (map_bare_eq hg h)

/-- The entries of a list with separators. -/
def entries {separator : Char} (t : (Grammar.separated separator g).Derivation) :
    List g.Derivation := t.1 :: List.map Prod.snd t.2

/-- Entries joined by separators. -/
def joined (separator : Char) (first : g.Derivation) (more : List g.Derivation) :
    (Grammar.separated separator g).Derivation := (first, more.map fun t => ((), t))

/-- A list with separators is its entries, however it is put together from them. -/
theorem entries_joined (separator : Char) (first : g.Derivation) (more : List g.Derivation) :
    entries (joined separator first more) = first :: more :=
  congrArg _ ((List.map_map ..).trans (List.map_id'' (fun _ => rfl) more))

/-- A list with separators, in any order where the order may differ. -/
def separated (separator : Char) (d : Change v g) : Change v (.separated separator g) where
  rel t u := v.Lists d.rel (entries t) (entries u)
  of_bare h := by
    have hmore := forall₂_of_bare (.seqRight (.mark separator) d)
      (map_bare_eq rfl (congrArg Prod.snd h))
    exact Variation.lists_of_forall₂ (.cons (d.of_bare (congrArg Prod.fst h))
      (List.forall₂_map_left_iff.2 (List.forall₂_map_right_iff.2 (hmore.imp fun _ _ h => h))))

/-- The entries of a list that is not empty. -/
def rounds (t : (Grammar.some1 g).Derivation) : List g.Derivation := t.1 :: t.2

/-- A set that is not empty. -/
def some1 (hg : g.isLiteral = false) (d : Change v g) : Change v (.some1 g) where
  rel t u := v.Sets d.rel (rounds t) (rounds u)
  of_bare h := Variation.sets_of_forall₂ (.cons (d.of_bare (congrArg Prod.fst h))
    (d.forall₂_of_bare (map_bare_eq hg (congrArg Prod.snd h))))

/-! ## Values -/

/-- **Related derivations give related values.** -/
def Carries (d : Change v g) (R : α → α → Prop) : Prop :=
  ∀ ⦃t u x y⦄, d.rel t u → g.Gives t x → g.Gives u y → R x y

namespace Carries

variable {d : Change v g} {d' : Change v g'} {R : α → α → Prop} {S : β → β → Prop}

/-- A relation that asks for less is carried too. -/
theorem mono {R' : α → α → Prop} (h : d.Carries R) (hR : ∀ {x y}, R x y → R' x y) :
    d.Carries R' := fun _ _ _ _ htu hx hy => hR (h htu hx hy)

/-- The same script is the same value. -/
theorem script : (Change.script : Change v _).Carries Eq := by
  rintro t _ x y rfl hx hy
  exact hx.script.trans hy.script.symm

/-- Literals are carried as lists: the same ones, or any where they may differ. -/
theorem literals (rule : Rule) : (Change.literals rule : Change v _).Carries v.Literals := by
  rintro t u ls ms (hv | rfl) hls hms
  · exact .inl hv
  · exact .inr (List.right_unique_forall₂' (fun _ _ _ hl hm =>
      hl.named.literal.trans hm.named.literal.symm) hls.many hms.many)

/-- **Each part carries its own relation**, and the pair both. -/
theorem seq (h : d.Carries R) (h' : d'.Carries S) :
    (d.seq d').Carries fun p q => R p.1 q.1 ∧ S p.2 q.2 := fun _ _ _ _ htu hx hy =>
  ⟨h htu.1 hx.seq.1 hy.seq.1, h' htu.2 hx.seq.2 hy.seq.2⟩

/-- Both alternatives must carry the relation, for a change may be of either. -/
theorem either {g' : Grammar α} {d' : Change v g'} (h : d.Carries R) (h' : d'.Carries R) :
    (d.either d').Carries R := by
  intro t u x y htu hx hy
  cases htu with
  | inl htu => exact h htu hx hy
  | inr htu => exact h' htu hx hy

/-- **A list carries its entries' relation**, one entry after the other in the same order. -/
theorem many (hg : g.isLiteral = false) (h : d.Carries R) : (d.many hg).Carries (Forall₂ R) :=
  fun _ _ _ _ htu hx hy => Variation.forall₂_carry h htu hx.many hy.many

theorem named (h : d.Carries R) (rule : Rule) : (d.named rule).Carries R :=
  fun _ _ _ _ htu hx hy => h htu hx.named hy.named

/-- The place of a text may differ: a change moves what stands behind it. -/
theorem placed (h : d.Carries R) : d.placed.Carries fun p q => R p.2 q.2 :=
  fun _ _ _ _ htu hx hy => h htu hx.placed hy.placed

/-- A relation of renamed values is one of the values before. -/
theorem map {f : α → β} (h : d.Carries fun x y => S (f x) (f y)) : (d.map f).Carries S := by
  intro t u _ _ htu hfx hfy
  obtain ⟨x, hx, rfl⟩ := hfx.map
  obtain ⟨y, hy, rfl⟩ := hfy.map
  exact h htu hx hy

theorem seqRight (first : Grammar β) (h : d.Carries R) : (d.seqRight first).Carries R :=
  fun _ _ _ _ htu hx hy => h htu hx.seqRight hy.seqRight

theorem between (h : d.Carries R) (opening closing : Char) :
    (d.between opening closing).Carries R :=
  fun _ _ _ _ htu hx hy => h htu hx.between hy.between

/-- What is missing is missing on both sides. -/
theorem optional (h : d.Carries R) : d.optional.Carries (Option.Rel R) :=
  .either (.map (h.mono .some)) (.map fun _ _ _ _ _ _ _ => .none)

/-- The values of a list with separators are those of its entries ... -/
theorem forall₂_gives_entries {separator : Char} {t : (Grammar.separated separator g).Derivation}
    {l : List α} (h : (Grammar.separated separator g).Gives t l) :
    Forall₂ g.Gives (entries t) l := by
  obtain ⟨⟨x, xs⟩, hx, rfl⟩ := h.map
  refine .cons hx.seq.1 (List.forall₂_map_left_iff.2 ?_)
  exact hx.seq.2.many.imp fun _ _ => Grammar.Gives.seqRight

/-- ... and so are those of a list without separators. -/
theorem forall₂_gives_rounds {t : (Grammar.some1 g).Derivation} {l : List α}
    (h : (Grammar.some1 g).Gives t l) : Forall₂ g.Gives (rounds t) l := by
  obtain ⟨⟨x, xs⟩, hx, rfl⟩ := h.map
  exact .cons hx.seq.1 hx.seq.2.many

/-- **Where the order may differ, so may that of the values**, and each still has its partner. -/
theorem separated (h : d.Carries R) (separator : Char) :
    (d.separated separator).Carries (v.Lists R) := fun _ _ _ _ htu hx hy =>
  Variation.Lists.carry h htu (forall₂_gives_entries hx) (forall₂_gives_entries hy)

/-- **Sets of derivations give sets of values**: each value has a partner on the other side, however
often either is repeated. -/
theorem some1 (hg : g.isLiteral = false) (h : d.Carries R) : (d.some1 hg).Carries (v.Sets R) :=
  fun _ _ _ _ htu hx hy =>
    Variation.Sets.carry h htu (forall₂_gives_rounds hx) (forall₂_gives_rounds hy)

end Carries

end Change

/-! ## The rules of the grammar -/

namespace Productions

open Change

variable {v : Variation}

/-- A term keeps its script; its place may differ. -/
def termChange : Change v term := map _ (placed (named _ (between _ _ (named _ Change.script))))

def bareTermChange : Change v bareTerm := map _ (placed (named _ Change.script))

/-- The terms of a morpheme come in any order. -/
def morphemeChange : Change v morpheme := named _ (map _ (between _ _ (separated _ termChange)))

/-- The two morphemes of a word keep their roles, and its literals come last. -/
def wordChange : Change v word :=
  named _ (map _ (seq (between _ _ (seq morphemeChange (optional (seqRight _ morphemeChange))))
    (literals _)))

section Nodes

variable {F : Type}

/-- The three nodes of a clause keep their roles. -/
def clauseOverChange {node : Grammar F} (d : Change v node) (rule : Rule) :
    Change v (clauseOver rule node) :=
  named _ (map _ (between _ _ (seq d (seqRight _ (seq d (seqRight _ d))))))

/-- The clauses of a sentence come in any order. -/
def sentenceOverChange {clause : Grammar (ClauseForm F)} (d : Change v clause) (rule : Rule) :
    Change v (sentenceOver rule clause) :=
  named _ (map _ (seq (between _ _ (separated _ d)) (literals _)))

end Nodes

def clauseChange : Change v clause := clauseOverChange wordChange _

def sentenceChange : Change v sentence := sentenceOverChange clauseChange _

def superClauseChange : Change v superClause := clauseOverChange sentenceChange _

def superSentenceChange : Change v superSentence := sentenceOverChange superClauseChange _

/-- A proposition keeps its form, whichever of the three it has. -/
def propositionChange : Change v proposition :=
  either (map _ superSentenceChange) (either (map _ sentenceChange) (map _ wordChange))

/-- The members of a text come in any order and as often as they may. -/
def textChange : Change v text :=
  named _ (map _ (between _ _ (some1 rfl (between _ _ propositionChange))))

def pathStepChange : Change v pathStep :=
  either (map _ superSentenceChange) <| either (map _ sentenceChange) <|
  either (map _ superClauseChange) <| either (map _ clauseChange) <| either (map _ wordChange) <|
  either (map _ morphemeChange) (map _ termChange)

/-- The steps of a way keep their order. -/
def anchorChange : Change v anchor :=
  named _ (map _ (seq (many rfl (seqRight _ pathStepChange)) textChange))

def plainMemberChange : Change v plainMember :=
  named _ (map _ (between _ _ propositionChange))

/-- The links of a member come in any order and as often as they may. -/
def anchoredMemberChange : Change v anchoredMember :=
  named _ (map _ (between _ _ (seq propositionChange (some1 rfl anchorChange))))

/-- A member of a source text, with links or without. -/
def member : Grammar MemberForm := .either anchoredMember plainMember

/-- A member with links stays one, and so does a member without. -/
def memberChange : Change v member := either anchoredMemberChange plainMemberChange

def withLinks (t : anchoredMember.Derivation) : member.Derivation := Sum.inl t

def withoutLinks (t : plainMember.Derivation) : member.Derivation := Sum.inr t

/-- Members up to the first one with a link, that member, and those behind it. -/
def listed (plain : List plainMember.Derivation) (anchored : anchoredMember.Derivation)
    (more : List member.Derivation) : List member.Derivation :=
  plain.map withoutLinks ++ withLinks anchored :: more

/-- The members of a source text. -/
def blockMembers (t : hypertextBlock.Derivation) : List member.Derivation :=
  listed t.2.1.1 t.2.1.2.1 t.2.1.2.2

/-- Members lose their literals one by one. -/
theorem map_bare_blockMembers (t : hypertextBlock.Derivation) :
    (blockMembers t).map (member.bare v) = blockMembers (hypertextBlock.bare v t) := by
  have hlisted : ∀ plain anchored more, (listed plain anchored more).map (member.bare v) =
      listed (plain.map (plainMember.bare v)) (anchoredMember.bare v anchored)
        (more.map (member.bare v)) := by
    intro plain anchored more
    rw [listed, List.map_append, List.map_map, List.map_cons, listed, List.map_map]
    rfl
  exact (hlisted _ _ _).trans (congrArg₂ (fun plain more => listed plain _ more)
    (bare_many rfl _).symm (bare_many rfl _).symm)

/-- The members of a source text come in any order and as often as they may. -/
def hypertextBlockChange : Change v hypertextBlock where
  rel t u := v.Sets memberChange.rel (blockMembers t) (blockMembers u)
  of_bare {t u} h := Variation.sets_of_forall₂ (memberChange.forall₂_of_bare (by
    rw [map_bare_blockMembers, map_bare_blockMembers, h]))

/-- The source texts come in any order and as often as they may. -/
def hypertextChange : Change v hypertext := named _ (some1 rfl hypertextBlockChange)

/-- **What may differ in a whole text**, rule by rule. -/
def anyExpressionChange : Change v anyExpression :=
  either (map _ hypertextChange) <| either (map _ textChange) <|
  either (map _ propositionChange) <| either (map _ superClauseChange) <|
  either (map _ clauseChange) <| either (map _ morphemeChange) <|
  either (map _ termChange) (map _ bareTermChange)

end Productions

end Metalanguage
