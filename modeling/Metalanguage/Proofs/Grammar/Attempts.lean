import Metalanguage.Grammar.Attempts
import Metalanguage.Proofs.Position

/-!
# Proofs/Grammar/Attempts — where the first fault of a text is noted

Taking notes does not change what is read (`Grammar.fst_trace`). The place that is noted only moves
forward (`Attempts.offset_note`), and it is one where a rule was tried, so it stands between two
characters of the text, or at its end (`Grammar.isPlace_attempts`).
-/

namespace Metalanguage

/-- **The furthest failure counts.** -/
theorem Attempts.offset_note (a : Attempts) (rule : Rule) (offset before : ℕ) :
    (a.note rule offset before).offset = max a.offset offset := by
  rw [note, countAt]
  split_ifs <;> grind

/-- A cursor that is somewhere in a text. -/
def Cursor.In (c : Cursor) (text : List Char) : Prop := ∃ before, (start text).Passes before c

namespace Cursor.In

variable {c d : Cursor} {text : List Char}

/-- A text is read from its beginning ... -/
theorem start (text : List Char) : (Cursor.start text).In text := ⟨[], .nil _⟩

/-- ... and what passes over some of it stays in it. -/
theorem passes {cs : List Char} (hc : c.In text) (h : c.Passes cs d) : d.In text := by
  obtain ⟨before, hbefore⟩ := hc
  exact ⟨before ++ cs, hbefore.trans h⟩

theorem skipBlanks (hc : c.In text) : c.skipBlanks.In text := by
  obtain ⟨blanks, -, hpasses⟩ := c.exists_passes_skipBlanks
  exact hc.passes hpasses

/-- **A cursor in a text stands between two characters**, or at an end. -/
theorem isPlace (hc : c.In text) : IsPlace text c.offset := by
  obtain ⟨before, hbefore⟩ := hc
  exact hbefore.isPlace

end Cursor.In

namespace Grammar

variable {α : Type}

/-! ## What is read -/

section Repeated

variable {body : Cursor → Option (α × Cursor)}
  {noting : Cursor → Attempts → Option (α × Cursor) × Attempts}

/-- Rounds that are traced read what rounds read: the notes are carried along and never asked. -/
theorem fst_traceRounds (h : ∀ c a, (noting c a).1 = body c) : ∀ (bound : List Char) (c : Cursor)
    (a : Attempts), (traceRounds noting bound c a).1 = rounds body bound c
  | [], _, _ => rfl
  | _ :: bound, c, a => by
    rw [traceRounds, rounds, ← h c.skipBlanks a]
    rcases noting c.skipBlanks a with ⟨_ | ⟨x, d⟩, b⟩
    · rfl
    · simp only [← fst_traceRounds h bound d b]

theorem fst_traceRepeated (h : ∀ c a, (noting c a).1 = body c) (c : Cursor) (a : Attempts) :
    (traceRepeated noting c a).1 = repeated body c := by
  rw [traceRepeated, repeated, ← h c a]
  rcases noting c a with ⟨_ | ⟨x, d⟩, b⟩
  · rfl
  · simp only [← fst_traceRounds h c.rest d b]

end Repeated

/-- **Taking notes does not change what is read.** -/
theorem fst_trace : ∀ {α : Type} (g : Grammar α) (c : Cursor) (a : Attempts),
    (g.trace c a).1 = g.read c
  | _, .empty, _, _ => rfl
  | _, .mark _, _, _ => rfl
  | _, .script, _, _ => rfl
  | _, .literal, _, _ => rfl
  | _, .finish, _, _ => rfl
  | _, .seq first second, c, a => by
    rw [trace, read, ← fst_trace first c a]
    rcases trace first c a with ⟨_ | ⟨x, d⟩, b⟩
    · rfl
    · simp only [← fst_trace second d.skipBlanks b]
      rcases trace second d.skipBlanks b with ⟨_ | ⟨y, e⟩, b'⟩ <;> rfl
  | _, .either first second, c, a => by
    rw [trace, read, ← fst_trace first c a]
    rcases trace first c a with ⟨_ | ⟨x, d⟩, b⟩
    · exact fst_trace second c b
    · rfl
  | _, .many body, c, a => by
    rw [trace, read, ← fst_traceRepeated (fst_trace body) c a]
  | _, .named rule body, c, a => by
    rw [trace, read, ← fst_trace body c a]
    rcases trace body c a with ⟨_ | result, b⟩ <;> rfl
  | _, .placed body, c, a => by
    rw [trace, read, ← fst_trace body c a]
    rcases trace body c a with ⟨_ | ⟨x, d⟩, b⟩ <;> rfl
  | _, .map f body, c, a => by
    rw [trace, read, ← fst_trace body c a]
    rcases trace body c a with ⟨_ | ⟨x, d⟩, b⟩ <;> rfl

/-! ## What is noted -/

section Noted

variable {text : List Char} {c d : Cursor} {a b : Attempts}

/-- What is traced stays in the text, since it is what is read. -/
theorem in_of_trace {g : Grammar α} {x : α} (hc : c.In text)
    (h : g.trace c a = (some (x, d), b)) : d.In text := by
  have hread : g.read c = some (x, d) := by rw [← fst_trace g c a, h]
  obtain ⟨cs, hpasses, -⟩ := spells_of_read g hread
  exact hc.passes hpasses

variable {g : Grammar α} (hg : ∀ {c a o b}, c.In text → IsPlace text a.offset →
  g.trace c a = (o, b) → IsPlace text b.offset)

include hg

/-- Each round leaves a place behind it, and so do all. The induction is on the tries that are left.
-/
theorem isPlace_traceRounds : ∀ (bound : List Char) {c : Cursor} {a b : Attempts}
    {o : List α × Cursor}, c.In text → IsPlace text a.offset →
      traceRounds g.trace bound c a = (o, b) → IsPlace text b.offset
  | [], c, a, b, o, _, ha, h => by
    cases h
    exact ha
  | _ :: bound, c, a, b, o, hc, ha, h => by
    rw [traceRounds] at h
    split at h
    · next hround =>
      cases h
      exact hg hc.skipBlanks ha hround
    · next hround =>
      cases h
      exact isPlace_traceRounds bound (in_of_trace hc.skipBlanks hround)
        (hg hc.skipBlanks ha hround) rfl

theorem isPlace_traceRepeated {o : List α × Cursor} (hc : c.In text) (ha : IsPlace text a.offset)
    (h : traceRepeated g.trace c a = (o, b)) : IsPlace text b.offset := by
  rw [traceRepeated] at h
  split at h
  · next hfirst =>
    cases h
    exact hg hc ha hfirst
  · next hfirst =>
    cases h
    exact isPlace_traceRounds hg _ (in_of_trace hc hfirst) (hg hc ha hfirst) rfl

omit hg

/-- **What is noted stays in the text.** -/
theorem isPlace_trace : ∀ {α : Type} (g : Grammar α) {c : Cursor} {a b : Attempts}
    {o : Option (α × Cursor)}, c.In text → IsPlace text a.offset → g.trace c a = (o, b) →
      IsPlace text b.offset
  | _, .empty, _, _, _, _, _, ha, h => by cases h; exact ha
  | _, .mark _, _, _, _, _, _, ha, h => by cases h; exact ha
  | _, .script, _, _, _, _, _, ha, h => by cases h; exact ha
  | _, .literal, _, _, _, _, _, ha, h => by cases h; exact ha
  | _, .finish, _, _, _, _, _, ha, h => by cases h; exact ha
  | _, .seq first second, c, a, b, o, hc, ha, h => by
    rw [trace] at h
    split at h
    · next hfirst =>
      cases h
      exact isPlace_trace first hc ha hfirst
    · next hfirst =>
      have hd := (in_of_trace hc hfirst).skipBlanks
      have hnoted := isPlace_trace first hc ha hfirst
      split at h
      all_goals
        next hsecond =>
          cases h
          exact isPlace_trace second hd hnoted hsecond
  | _, .either first second, c, a, b, o, hc, ha, h => by
    rw [trace] at h
    split at h
    · next hfirst => exact isPlace_trace second hc (isPlace_trace first hc ha hfirst) h
    · next hfirst =>
      cases h
      exact isPlace_trace first hc ha hfirst
  | _, .many body, c, a, b, o, hc, ha, h => by
    cases h
    exact isPlace_traceRepeated (isPlace_trace body) hc ha rfl
  | _, .named rule body, c, a, b, o, hc, ha, h => by
    rw [trace] at h
    split at h
    · next hbody =>
      -- Only a rule that fails notes something: the place where it was tried.
      cases h
      rw [Attempts.offset_note]
      exact max_rec' (IsPlace text) (isPlace_trace body hc ha hbody) hc.isPlace
    · next hbody =>
      cases h
      exact isPlace_trace body hc ha hbody
  | _, .placed body, c, a, b, o, hc, ha, h => by
    rw [trace] at h
    split at h
    all_goals
      next hbody =>
        cases h
        exact isPlace_trace body hc ha hbody
  | _, .map f body, c, a, b, o, hc, ha, h => by
    rw [trace] at h
    split at h
    all_goals
      next hbody =>
        cases h
        exact isPlace_trace body hc ha hbody

/-- **The furthest failure is between the characters** of the text. -/
theorem isPlace_attempts (g : Grammar α) (text : List Char) :
    IsPlace text (g.attempts text).offset :=
  isPlace_trace g (.start text) (isPlace_zero text) rfl

end Noted

end Grammar

end Metalanguage
