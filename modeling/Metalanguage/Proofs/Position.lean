import Metalanguage.Proofs.Grammar.Spelling

/-!
# Proofs/Position — places between the characters of a text

A count of bytes is a place in a text if it is the size of what stands before some character, or of
the whole (`IsPlace`). The line and the column of such a place are those that the characters before it
lead to (`LineColumn.ofOffset_append`), so on a single line the column counts these characters.
-/

namespace Metalanguage

/-- **A place between the characters** of a text, in bytes from its start. -/
def IsPlace (text : List Char) (bytes : ℕ) : Prop :=
  ∃ before after, text = before ++ after ∧ bytes = byteLength before

theorem isPlace_zero (text : List Char) : IsPlace text 0 := ⟨[], text, rfl, rfl⟩

theorem Cursor.Passes.isPlace {text before : List Char} {c : Cursor}
    (h : (start text).Passes before c) : IsPlace text c.offset :=
  ⟨before, c.rest, h.rest, h.offset.trans (Nat.zero_add _)⟩

namespace LineColumn

variable {cs before after : List Char}

/-- **Characters are passed one at a time**, each with all its bytes. -/
theorem advance_append (before after : List Char) (p : LineColumn) :
    advance (before ++ after) (byteLength before) p = before.foldl step p := by
  induction before generalizing p with
  | nil => cases after <;> rfl
  | cons c before ih =>
    have hpos : c.utf8Size + byteLength before ≠ 0 := by
      have := c.utf8Size_pos
      omega
    rw [List.cons_append, byteLength_cons, advance, if_neg hpos, Nat.add_sub_cancel_left, ih,
      List.foldl_cons]

/-- The line and the column of a place are what the characters before it lead to. -/
theorem ofOffset_append (before after : List Char) :
    ofOffset (before ++ after) (byteLength before) = before.foldl step ⟨1, 1⟩ :=
  advance_append before after ⟨1, 1⟩

theorem foldl_step_of_no_feed (h : '\n' ∉ cs) (p : LineColumn) :
    cs.foldl step p = ⟨p.line, p.column + cs.length⟩ := by
  induction cs generalizing p with
  | nil => rfl
  | cons c cs ih =>
    obtain ⟨hc, hcs⟩ := not_or.1 (List.mem_cons.not.1 h)
    rw [List.foldl_cons, ih hcs, step, if_neg (by simpa using Ne.symm hc), List.length_cons]
    simp only [mk.injEq, true_and]
    omega

/-- **On a single line** the column counts the characters before a place. -/
theorem ofOffset_of_no_feed (h : '\n' ∉ before) (after : List Char) :
    ofOffset (before ++ after) (byteLength before) = ⟨1, before.length + 1⟩ := by
  rw [ofOffset_append, foldl_step_of_no_feed h, Nat.add_comm]

end LineColumn

end Metalanguage
