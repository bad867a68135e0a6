import Mathlib.Data.List.Forall2
import Metalanguage.Proofs.Grammar.Spelling

/-!
# Proofs/Grammar/Writing — texts that grammars spell for given objects

`Writes g R cs x` says that `g` spells `cs`, wherever it stands, for a value that `R` relates to
`x`. Each way to combine grammars writes what its parts write, without blanks in between.
-/

namespace Metalanguage.Grammar

variable {F G X Y : Type}

/-- **A text that stands for an object**, by way of a value that the grammar spells. -/
def Writes (g : Grammar F) (R : F → X → Prop) (cs : List Char) (x : X) : Prop :=
  ∀ o, ∃ f, Spells g o cs f ∧ R f x

/-- Texts side by side are spelled in a row: no blank has to stand between them. -/
theorem spells_seq {first : Grammar F} {second : Grammar G} {o : ℕ} {xs ys : List Char} {x : F}
    {y : G} (h : Spells first o xs x) (h' : Spells second (o + byteLength xs) ys y) :
    Spells (.seq first second) o (xs ++ ys) (x, y) :=
  ⟨xs, [], ys, by simp, blank_nil, h, by simpa using h'⟩

section Parts

variable {g : Grammar F} {g' : Grammar G} {R : F → X → Prop} {R' : G → Y → Prop}
  {cs cs' : List Char} {x : X} {y : Y}

/-- A renamed value may stand for another object, as long as the new relation says so. -/
theorem Writes.map (h : Writes g R cs x) (φ : F → G) (hR : ∀ {f}, R f x → R' (φ f) y) :
    Writes (.map φ g) R' cs y := by
  intro o
  obtain ⟨f, hf, hfx⟩ := h o
  exact ⟨φ f, ⟨f, hf, rfl⟩, hR hfx⟩

theorem Writes.named (h : Writes g R cs x) (rule : Rule) : Writes (.named rule g) R cs x := h

/-- A grammar that also tells where its text stands writes the same texts: the relation does not
look at the place. -/
theorem Writes.placed (h : Writes g R cs x) : Writes (.placed g) (fun f => R f.2) cs x := by
  intro o
  obtain ⟨f, hf, hfx⟩ := h o
  exact ⟨(_, f), ⟨rfl, hf⟩, hfx⟩

/-- **Either grammar of a choice writes for it.** That the first one is tried first is no matter
here: `Writes` is about what is spelled, and not about what is read. -/
theorem Writes.left (h : Writes g R cs x) (g' : Grammar F) : Writes (.either g g') R cs x :=
  fun o => (h o).imp fun _ hf => ⟨.inl hf.1, hf.2⟩

theorem Writes.right (h : Writes g R cs x) (g' : Grammar F) : Writes (.either g' g) R cs x :=
  fun o => (h o).imp fun _ hf => ⟨.inr hf.1, hf.2⟩

/-- **In a row**: the texts are joined, and each part keeps its own relation. -/
theorem Writes.seq (h : Writes g R cs x) (h' : Writes g' R' cs' y) :
    Writes (.seq g g') (fun f p => R f.1 p.1 ∧ R' f.2 p.2) (cs ++ cs') (x, y) := by
  intro o
  obtain ⟨f, hf, hfx⟩ := h o
  obtain ⟨f', hf', hfy⟩ := h' (o + byteLength cs)
  exact ⟨(f, f'), spells_seq hf hf', hfx, hfy⟩

/-- A mark in front belongs to the text and leaves no value. -/
theorem Writes.markRight (h : Writes g R cs x) (m : Char) :
    Writes (seqRight (.mark m) g) R (m :: cs) x := by
  intro o
  obtain ⟨f, hf, hfx⟩ := h (o + byteLength [m])
  exact ⟨f, ⟨((), f), spells_seq (show Spells (.mark m) o [m] () from rfl) hf, rfl⟩, hfx⟩

/-- Two marks around it do not either. -/
theorem Writes.between (h : Writes g R cs x) (opening closing : Char) :
    Writes (.between opening closing g) R (opening :: (cs ++ [closing])) x := by
  refine Writes.markRight (fun o => ?_) opening
  obtain ⟨f, hf, hfx⟩ := h o
  exact ⟨f, ⟨(f, ()), spells_seq hf rfl, rfl⟩, hfx⟩

/-- What may be left out is written as itself if it is there ... -/
theorem Writes.just (h : Writes g R cs x) :
    Writes (optional g) (Option.Rel R) cs (some x) :=
  (h.map some fun hf => .some hf).left _

/-- ... and as nothing if it is not. -/
theorem writes_none (g : Grammar F) (R : F → X → Prop) :
    Writes (optional g) (Option.Rel R) [] none := fun _ =>
  ⟨none, .inr ⟨(), rfl, rfl⟩, .none⟩

end Parts

section Lists

variable {g : Grammar F} {R : F → X → Prop} {text : X → List Char}

/-- **One after the other**: the text of a list is that of its entries, in their order, and the
empty list is written as the empty text. -/
theorem Writes.many : ∀ {l : List X}, (∀ x ∈ l, Writes g R (text x) x) →
    Writes (.many g) (List.Forall₂ R) (l.flatMap text) l
  | [], _, o => ⟨[], .nil o, .nil⟩
  | x :: l, h, o => by
    obtain ⟨hx, hl⟩ := List.forall_mem_cons.1 h
    obtain ⟨f, hf, hfx⟩ := hx o
    obtain ⟨fs, hfs, hall⟩ := Writes.many hl (o + byteLength (text x ++ []))
    refine ⟨f :: fs, ?_, .cons hfx hall⟩
    have hspells : Rounds (Spells g) o (text x ++ [] ++ l.flatMap text) (f :: fs) :=
      .cons hf blank_nil hfs
    rwa [List.append_nil] at hspells

/-- The same for a list that must not be empty: its first entry is the one that has to be there. -/
theorem Writes.some1 {l : List X} (h : ∀ x ∈ l, Writes g R (text x) x) (hne : l ≠ []) :
    Writes (some1 g) (List.Forall₂ R) (l.flatMap text) l := by
  cases l with
  | nil => exact absurd rfl hne
  | cons x l =>
    obtain ⟨hx, hl⟩ := List.forall_mem_cons.1 h
    exact (hx.seq (Writes.many hl)).map _ fun hf => .cons hf.1 hf.2

/-- A separator between entries is a separator in front of each entry but the first, which is how
the grammar of lists has it. -/
theorem intercalate_map_cons (separator : Char) (text : X → List Char) (x : X) (l : List X) :
    [separator].intercalate ((x :: l).map text) =
      text x ++ l.flatMap fun y => separator :: text y := by
  induction l generalizing x with
  | nil => simp
  | cons y l ih =>
    rw [List.map_cons, List.map_cons, List.intercalate_cons_cons, ← List.map_cons, ih]
    simp

/-- **A list with separators** is written as its entries joined by them. -/
theorem Writes.separated (separator : Char) {l : List X} (h : ∀ x ∈ l, Writes g R (text x) x)
    (hne : l ≠ []) :
    Writes (separated separator g) (List.Forall₂ R) ([separator].intercalate (l.map text)) l := by
  cases l with
  | nil => exact absurd rfl hne
  | cons x l =>
    obtain ⟨hx, hl⟩ := List.forall_mem_cons.1 h
    have hmore := Writes.many fun y hy => (hl y hy).markRight separator
    rw [intercalate_map_cons]
    exact (hx.seq hmore).map _ fun hf => .cons hf.1 hf.2

end Lists

end Metalanguage.Grammar
