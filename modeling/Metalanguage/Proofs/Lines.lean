import Mathlib.Data.List.DropRight
import Metalanguage.Lines

/-!
# Proofs/Lines — the lines of a text

A line ends at a line feed, or at a carriage return with a line feed behind it; the end of the last
line may be missing (`Lines.ofText`). A text that is cut at its line feeds comes to the same but for
the carriage returns and for an empty piece at the end (`Lines.sameLines_cut`), which make no
difference once white space is taken off (`Lines.SameLines.filterMap_zipIdx`).
-/

namespace Metalanguage.Lines

variable {c : Char} {cs line : List Char} {pieces lines : List (List Char)}

/-! ## Lines -/

/-- Puts a character in front of the first line. -/
def extend (c : Char) : List (List Char) → List (List Char)
  | [] => [[c]]
  | line :: lines => (c :: line) :: lines

/-- **The lines of a text**, without their ends. -/
def ofText : List Char → List (List Char)
  | [] => []
  | '\n' :: cs => [] :: ofText cs
  | '\r' :: '\n' :: cs => [] :: ofText cs
  | c :: cs => extend c (ofText cs)

/-- A character that does not separate goes to the piece behind it ... -/
theorem cut_cons_of_ne {separator : Char} (h : c ≠ separator) (cs : List Char) :
    cut separator (c :: cs) = extend c (cut separator cs) := by
  rw [cut, List.foldr_cons, ← cut]
  cases cut separator cs with
  | nil => rfl
  | cons piece pieces => simp [h, extend]

/-- There is always a piece, if only an empty one. -/
theorem cut_ne_nil (separator : Char) (cs : List Char) : cut separator cs ≠ [] := by
  cases cs with
  | nil => exact List.cons_ne_nil _ _
  | cons c cs =>
    rw [cut, List.foldr_cons, ← cut]
    split
    · exact List.cons_ne_nil _ _
    · split <;> exact List.cons_ne_nil _ _

/-- ... and one that does makes a new piece. -/
theorem cut_cons_self (separator : Char) (cs : List Char) :
    cut separator (separator :: cs) = [] :: cut separator cs := by
  obtain ⟨piece, pieces, h⟩ := List.exists_cons_of_ne_nil (cut_ne_nil separator cs)
  rw [cut, List.foldr_cons, ← cut, h]
  simp

/-- **The same lines**, but for carriage returns at the ends of the pieces and for a last piece
without anything in it. -/
inductive SameLines : List (List Char) → List (List Char) → Prop
  | nil : SameLines [[]] []
  | last {line : List Char} (h : line ≠ []) : SameLines [line] [line]
  | cons {piece line : List Char} {pieces lines : List (List Char)}
    (h : piece = line ∨ piece = line ++ ['\r']) (hrest : SameLines pieces lines) :
    SameLines (piece :: pieces) (line :: lines)

/-- One character more on the first line keeps the lines the same. -/
theorem SameLines.extend (h : SameLines pieces lines) (c : Char) :
    SameLines (Lines.extend c pieces) (Lines.extend c lines) := by
  cases h with
  | nil => exact .last (List.cons_ne_nil _ _)
  | last => exact .last (List.cons_ne_nil _ _)
  | cons hpiece hrest => exact .cons (hpiece.imp (congrArg _) (congrArg _)) hrest

/-- **Cutting a text at its line feeds** gives its lines. -/
theorem sameLines_cut (cs : List Char) : SameLines (cut '\n' cs) (ofText cs) := by
  fun_induction ofText cs with
  | case1 => exact .nil
  | case2 cs ih =>
    rw [cut_cons_self]
    exact .cons (.inl rfl) ih
  | case3 cs ih =>
    rw [cut_cons_of_ne (by decide), cut_cons_self]
    exact .cons (.inr rfl) ih
  | case4 c cs hfeed _ ih =>
    rw [cut_cons_of_ne hfeed]
    exact ih.extend c

theorem feed_not_mem_extend {feed : Char} (hc : c ≠ feed) (h : ∀ line ∈ lines, feed ∉ line) :
    ∀ line ∈ extend c lines, feed ∉ line := by
  cases lines with
  | nil => simpa [extend] using hc.symm
  | cons first lines =>
    obtain ⟨hfirst, hlines⟩ := List.forall_mem_cons.1 h
    exact List.forall_mem_cons.2 ⟨by simpa [hc.symm] using hfirst, hlines⟩

/-- No line goes on behind a line feed. -/
theorem feed_not_mem_ofText (cs : List Char) : ∀ line ∈ ofText cs, '\n' ∉ line := by
  fun_induction ofText cs with
  | case1 => exact nofun
  | case2 cs ih => exact List.forall_mem_cons.2 ⟨List.not_mem_nil, ih⟩
  | case3 cs ih => exact List.forall_mem_cons.2 ⟨List.not_mem_nil, ih⟩
  | case4 c cs hfeed _ ih => exact feed_not_mem_extend hfeed ih

/-! ## White space at the ends -/

theorem trim_eq_rdropWhile (cs : List Char) :
    trim cs = (cs.dropWhile isWhiteSpace).rdropWhile isWhiteSpace := rfl

/-- A line is its indent, what is left of it, and white space. -/
theorem exists_eq_append_trim (line : List Char) : ∃ after, (∀ c ∈ after, isWhiteSpace c) ∧
    line = line.takeWhile isWhiteSpace ++ trim line ++ after := by
  refine ⟨(line.dropWhile isWhiteSpace).rtakeWhile isWhiteSpace, ?_, ?_⟩
  · exact fun c hc => List.mem_rtakeWhile_imp hc
  · rw [List.append_assoc, trim_eq_rdropWhile, List.rdropWhile_append_rtakeWhile,
      List.takeWhile_append_dropWhile]

/-- **What is left of a line** without the white space at its ends: nothing else is taken off, and no
white space is left there. -/
structure Trims (line rest : List Char) : Prop where
  exists_blanks : ∃ before after, line = before ++ rest ++ after ∧
    ∀ c ∈ before ++ after, isWhiteSpace c
  head : ∀ c, rest.head? = some c → ¬ isWhiteSpace c
  last : ∀ c, rest.getLast? = some c → ¬ isWhiteSpace c

/-- **What is trimmed has no white space at its ends**, and only white space is gone. -/
theorem trims_trim (line : List Char) : Trims line (trim line) where
  exists_blanks := by
    obtain ⟨after, hafter, hline⟩ := exists_eq_append_trim line
    refine ⟨_, after, hline, List.forall_mem_append.2 ⟨fun c hc => ?_, hafter⟩⟩
    exact List.mem_takeWhile_imp hc
  head c hc := by
    obtain ⟨rest, hrest⟩ := List.rdropWhile_prefix isWhiteSpace (line.dropWhile isWhiteSpace)
    have hhead : (line.dropWhile isWhiteSpace).head? = some c := by
      rw [← hrest, List.head?_append, ← trim_eq_rdropWhile, hc, Option.some_or]
    have hnot := List.head?_dropWhile_not isWhiteSpace line
    rw [hhead] at hnot
    simpa using hnot
  last c hc := by
    have hnot := List.head?_dropWhile_not isWhiteSpace (line.dropWhile isWhiteSpace).reverse
    rw [trim, List.getLast?_reverse] at hc
    rw [hc] at hnot
    simpa using hnot

/-- A carriage return at the end is white space, so it makes no difference. -/
theorem trim_concat (h : isWhiteSpace c) (line : List Char) : trim (line ++ [c]) = trim line := by
  rw [trim, trim, List.dropWhile_append]
  split
  · next hnil =>
    rw [List.isEmpty_iff.1 hnil, List.dropWhile_cons_of_pos h]
    rfl
  · rw [List.reverse_concat, List.dropWhile_cons_of_pos h]

/-- **What is picked out of the lines** with their numbers is the same, if it depends on a line without
the white space at its ends and no empty line is picked. -/
theorem SameLines.filterMap_zipIdx {A : Type} (pick : List Char → ℕ → Option A)
    (hempty : ∀ n, pick [] n = none) (h : SameLines pieces lines) : ∀ n : ℕ,
    ((pieces.zipIdx n).filterMap fun x => pick (trim x.1) x.2) =
      (lines.zipIdx n).filterMap fun x => pick (trim x.1) x.2 := by
  induction h with
  | nil => exact fun n => by simp [trim, hempty]
  | last => exact fun _ => rfl
  | @cons piece line _ _ hpiece _ ih =>
    intro n
    have htrim : trim piece = trim line := by
      rcases hpiece with rfl | rfl
      · rfl
      · exact trim_concat (by decide) _
    rw [List.zipIdx_cons, List.zipIdx_cons, List.filterMap_cons, List.filterMap_cons, ih, htrim]

end Metalanguage.Lines
