import Metalanguage.Proofs.Grammar.Derivation
import Metalanguage.Proofs.Grammar.Writing

/-!
# Proofs/Grammar/Denoting — texts put together from parts, with any blanks

`Denotes g R cs x` says that `cs` holds the tokens of a derivation of `g` with any blanks around them,
whatever value of which `R` relates to `x`. Each way to combine grammars puts the texts of its parts
together, each with its own blanks. (`Writes` is about the one text without blanks that an object is
written as; a text that somebody wrote may have them anywhere.)
-/

namespace Metalanguage.Grammar

variable {F G X Y : Type}

/-- **A text that stands for an object**, by the values of one derivation of its tokens. -/
def Denotes (g : Grammar F) (R : F → X → Prop) (cs : List Char) (x : X) : Prop :=
  ∃ t, Spaced (g.tokens t) cs ∧ ∀ f, g.Gives t f → R f x

section Parts

variable {g : Grammar F} {g' : Grammar G} {R : F → X → Prop} {R' : G → Y → Prop}
  {cs cs' : List Char} {x : X} {y : Y}

/-- A relation that asks for less is met by the same tokens. -/
theorem Denotes.imp {R' : F → Y → Prop} (h : Denotes g R cs x) (hR : ∀ {f}, R f x → R' f y) :
    Denotes g R' cs y := by
  obtain ⟨t, ht, hx⟩ := h
  exact ⟨t, ht, fun f hf => hR (hx f hf)⟩

/-- What a renamed grammar gives is a renamed value, so only values before the renaming are looked
at. -/
theorem Denotes.map (h : Denotes g R cs x) (φ : F → G) (hR : ∀ {f}, R f x → R' (φ f) y) :
    Denotes (.map φ g) R' cs y := by
  obtain ⟨t, ht, hx⟩ := h
  refine ⟨t, ht, fun _ hf => ?_⟩
  obtain ⟨f, hgives, rfl⟩ := hf.map
  exact hR (hx f hgives)

theorem Denotes.named (h : Denotes g R cs x) (rule : Rule) : Denotes (.named rule g) R cs x := h

/-- Where the tokens stand is not asked, so blanks in front of them may move them. -/
theorem Denotes.placed (h : Denotes g R cs x) : Denotes (.placed g) (fun f => R f.2) cs x := by
  obtain ⟨t, ht, hx⟩ := h
  exact ⟨t, ht, fun _ hf => hx _ hf.placed⟩

/-- **Either grammar of a choice puts texts together for it**; which one a text is of is kept in the
derivation. -/
theorem Denotes.left (h : Denotes g R cs x) (g' : Grammar F) : Denotes (.either g g') R cs x := by
  obtain ⟨t, ht, hx⟩ := h
  exact ⟨.inl t, ht, hx⟩

theorem Denotes.right (h : Denotes g R cs x) (g' : Grammar F) : Denotes (.either g' g) R cs x := by
  obtain ⟨t, ht, hx⟩ := h
  exact ⟨.inr t, ht, hx⟩

/-- **In a row**: blanks behind the first text and before the second meet, and remain blanks. -/
theorem Denotes.seq (h : Denotes g R cs x) (h' : Denotes g' R' cs' y) :
    Denotes (.seq g g') (fun f p => R f.1 p.1 ∧ R' f.2 p.2) (cs ++ cs') (x, y) := by
  obtain ⟨t, ht, hx⟩ := h
  obtain ⟨t', ht', hy⟩ := h'
  exact ⟨(t, t'), ht.append ht', fun _ hf => ⟨hx _ hf.seq.1, hy _ hf.seq.2⟩⟩

/-- A mark is a token of its own, without blanks here: they come with the text behind it. -/
theorem Denotes.markRight (h : Denotes g R cs x) (m : Char) :
    Denotes (seqRight (.mark m) g) R (m :: cs) x := by
  obtain ⟨t, ht, hx⟩ := h
  exact ⟨((), t), (Spaced.singleton [m]).append ht, fun _ hf => hx _ hf.seqRight⟩

/-- Two marks around a text; the blanks within them are the text's own. -/
theorem Denotes.between (h : Denotes g R cs x) (opening closing : Char) :
    Denotes (.between opening closing g) R (opening :: (cs ++ [closing])) x := by
  obtain ⟨t, ht, hx⟩ := h
  exact ⟨((), t, ()), (Spaced.singleton [opening]).append (ht.append (.singleton [closing])),
    fun _ hf => hx _ hf.between⟩

/-- What may be left out is put together as itself ... -/
theorem Denotes.just (h : Denotes g R cs x) :
    Denotes (optional g) (Option.Rel R) cs (some x) :=
  (h.map some fun hf => .some hf).left _

/-- ... or left out. -/
theorem denotes_none (g : Grammar F) (R : F → X → Prop) :
    Denotes (optional g) (Option.Rel R) [] none := by
  refine ⟨.inr (), .nil blank_nil, fun _ hf => ?_⟩
  obtain ⟨-, -, -, -, rfl⟩ := hf
  exact .none

end Parts

section Lists

variable {g : Grammar F} {R : F → X → Prop} {text : X → List Char}

/-- **One after the other**: the texts of the entries are joined in their order. -/
theorem Denotes.many {l : List X} (h : ∀ x ∈ l, Denotes g R (text x) x) :
    Denotes (.many g) (List.Forall₂ R) (l.flatMap text) l := by
  suffices hts : ∃ ts : List g.Derivation, Spaced (ts.flatMap g.tokens) (l.flatMap text) ∧
      ∀ fs, List.Forall₂ g.Gives ts fs → List.Forall₂ R fs l by
    obtain ⟨ts, hts, hall⟩ := hts
    exact ⟨ts, hts, fun fs hfs => hall fs hfs.many⟩
  induction l with
  | nil => exact ⟨[], .nil blank_nil, fun fs hfs => by cases hfs; exact .nil⟩
  | cons x l ih =>
    obtain ⟨⟨t, ht, hx⟩, hl⟩ := List.forall_mem_cons.1 h
    obtain ⟨ts, hts, hall⟩ := ih hl
    refine ⟨t :: ts, ht.append hts, fun fs hfs => ?_⟩
    cases hfs with
    | cons hf hfs => exact .cons (hx _ hf) (hall _ hfs)

/-- An empty list is the value of no text. -/
theorem denotes_nil (g : Grammar F) : Denotes (.many g) Eq [] [] :=
  ⟨[], .nil blank_nil, fun _ hfs => (List.forall₂_nil_left_iff.1 hfs.many)⟩

/-- **A list with separators** is put together from entries that are joined by them. -/
theorem Denotes.separated (separator : Char) {l : List X} (h : ∀ x ∈ l, Denotes g R (text x) x)
    (hne : l ≠ []) :
    Denotes (separated separator g) (List.Forall₂ R) ([separator].intercalate (l.map text)) l := by
  cases l with
  | nil => exact absurd rfl hne
  | cons x l =>
    obtain ⟨hx, hl⟩ := List.forall_mem_cons.1 h
    have hmore := Denotes.many fun y hy => (hl y hy).markRight separator
    rw [intercalate_map_cons]
    exact (hx.seq hmore).map _ fun hf => .cons hf.1 hf.2

end Lists

end Metalanguage.Grammar
