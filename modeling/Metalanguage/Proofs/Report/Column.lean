import Metalanguage.Proofs.Grammar.Attempts
import Metalanguage.Proofs.Reader.Refusal
import Metalanguage.Proofs.Report.Check

/-!
# Proofs/Report/Column — the column that a check shows

A failure to parse points between two characters of the text that is read, or at its end, and tells the
line and the column there (`Reader.pointsInto_of_parse`). A check does not read a line as it is in the
file but what is left without the white space around it, so the column that it shows counts from the
first character that is no white space (`Reader.column_behind_indent`), and is that in the line only
where nothing stands in front (`Reader.column_of_indented`).
-/

namespace Metalanguage

/-- **A failure points into the text** that was read, by the name of the text, the line and the column.
-/
structure ParseFailure.PointsInto (e : ParseFailure) (source input : String) : Prop where
  source : e.source = source
  start : IsPlace input.toList e.range.start
  place : e.place = .ofOffset input.toList e.range.start

theorem TermForm.StandsIn.isPlace {text : List Char} {t : TermForm} (h : t.StandsIn text) :
    IsPlace text t.range.start := by
  obtain ⟨before, piece, after, htext, hrange, -⟩ := h
  exact ⟨before, piece ++ after, by rw [htext, List.append_assoc], by rw [hrange]⟩

namespace FileLine

variable {files : List (String × String)} {l : FileLine}

/-- The white space in front of what is read of a line. -/
def indent (l : FileLine) : List Char := l.text.takeWhile Lines.isWhiteSpace

/-- What is read of a line stands in it behind the indent. -/
theorem exists_text_eq {before rest : List Char} (h : l.expression.toList = before ++ rest) :
    ∃ after, l.text = l.indent ++ before ++ after := by
  obtain ⟨blank, -, hline⟩ := Lines.exists_eq_append_trim l.text
  rw [expression, String.toList_ofList] at h
  rw [h, ← List.append_assoc, List.append_assoc _ rest] at hline
  exact ⟨rest ++ blank, hline⟩

theorem IsIn.feed_not_mem (h : l.IsIn files) : '\n' ∉ l.text := by
  obtain ⟨content, -, hline⟩ := h
  exact Lines.feed_not_mem_ofText _ _ (List.mem_of_getElem? hline)

end FileLine

/-- **Where a failure is in a line, and where it is shown**: it is behind the indent and `before`, and
the column that is shown counts from the indent. -/
structure ParseFailure.IsBehind (e : ParseFailure) (l : FileLine) (before after : List Char) :
    Prop where
  text : l.text = l.indent ++ before ++ after
  start : e.range.start = byteLength before
  place : e.place = ⟨1, before.length + 1⟩
  report : (Error.parse e).report = "Error: Parse error: " ++ e.reason.message ++ " (at " ++
    (l.location ++ ":1:" ++ toString (before.length + 1)) ++ ")"
  column : LineColumn.ofOffset l.text (byteLength (l.indent ++ before)) =
    ⟨1, l.indent.length + (before.length + 1)⟩
  right_iff : e.place = LineColumn.ofOffset l.text (byteLength (l.indent ++ before)) ↔
    l.indent = []

namespace Sample

/-- Two lines that cannot be read, both of them indented. -/
def indented : List (String × String) :=
  [("d.ieml", "\t[([a.])]<é>)\n  [([zz.])]")]

/-- The first of these lines. -/
def tabbed : FileLine := ⟨0, 0, "d.ieml", "\t[([a.])]<é>)".toList⟩

end Sample

namespace Reader

variable {r : Reader} {source input : String} {e : ParseFailure}

/-- **Failures to parse point into the text.** -/
theorem pointsInto_of_parse (h : r.parse source input = .error (.parse e)) :
    e.PointsInto source input := by
  rcases cases_error h with ⟨-, he⟩ | ⟨-, he⟩ | ⟨form, hform, hlookup | hbuilt⟩
  · cases he
  · have hnoted := Productions.expression.isPlace_attempts input.toList
    -- named, so that nothing traces the grammar over the text
    generalize hattempts : Productions.expression.attempts input.toList = attempts at hnoted
    rw [formError, hattempts] at he
    obtain rfl := Error.parse.inj he
    exact ⟨rfl, hnoted, rfl⟩
  · obtain ⟨before, t, after, hlookups, -, -, he⟩ := hlookup
    obtain rfl := Error.parse.inj he
    have hmem : t ∈ form.terms := ExpressionForm.mem_lookups.1 (by simp [hlookups])
    exact ⟨rfl, ((terms_of_form? hform).2.1 t hmem).isPlace, rfl⟩
  · cases hbuilt

/-- **The column counts from the first character that is no white space.** -/
theorem column_behind_indent {files : List (String × String)} {l : FileLine} (hin : l.IsIn files)
    (hcounts : Lines.Counts l.text) (h : r.parse l.location l.expression = .error (.parse e)) :
    ⟨l.location, .parse e⟩ ∈ (CheckReport.ofFiles r files).failures ∧
      ∃ before after, e.IsBehind l before after := by
  refine ⟨CheckReport.mem_failures_ofFiles.2 ⟨l, hin, hcounts, rfl, h⟩, ?_⟩
  obtain ⟨hsource, ⟨before, rest, hexpression, hstart⟩, hplace⟩ := pointsInto_of_parse h
  obtain ⟨after, htext⟩ := FileLine.exists_text_eq hexpression
  have hfeed : '\n' ∉ l.indent ++ before := fun hmem =>
    hin.feed_not_mem (htext ▸ List.mem_append_left after hmem)
  have hshown : e.place = ⟨1, before.length + 1⟩ := by
    rw [hplace, hstart, hexpression]
    exact LineColumn.ofOffset_of_no_feed (fun hmem => hfeed (List.mem_append_right _ hmem)) rest
  have hcolumn : LineColumn.ofOffset l.text (byteLength (l.indent ++ before)) =
      ⟨1, l.indent.length + (before.length + 1)⟩ := by
    conv_lhs => rw [htext]
    rw [LineColumn.ofOffset_of_no_feed hfeed, List.length_append, Nat.add_assoc]
  have hlocation : e.location = l.location ++ ":1:" ++ toString (before.length + 1) := by
    have hline : ":1:" = ":" ++ toString 1 ++ ":" := rfl
    rw [ParseFailure.location, hsource, hshown, hline]
    simp only [String.append_assoc]
  refine ⟨before, after, htext, hstart, hshown, by rw [← hlocation]; rfl, hcolumn, ?_⟩
  rw [hshown, hcolumn, LineColumn.mk.injEq, and_iff_right rfl, ← List.length_eq_zero_iff]
  omega

/-- The column counts characters, and the tab in front of the line is not among them. -/
theorem column_behind_indent_tab : ∃ e : ParseFailure,
    ⟨"d.ieml:1", .parse e⟩ ∈ (CheckReport.ofFiles Sample.reader Sample.indented).failures ∧
      e.range.start = 12 ∧ e.place = ⟨1, 12⟩ ∧
        ∃ before after, e.IsBehind Sample.tabbed before after := by
  have hin : Sample.tabbed.IsIn Sample.indented := ⟨_, rfl, by decide⟩
  have hread : ∃ e, Sample.reader.parse "d.ieml:1" "[([a.])]<é>)" = .error (.parse e) ∧
      e.range.start = 12 ∧ e.place = ⟨1, 12⟩ := ⟨_, rfl, rfl, rfl⟩
  obtain ⟨e, he, hstart, hplace⟩ := hread
  obtain ⟨hmem, hbehind⟩ := column_behind_indent hin (by decide) he
  exact ⟨e, hmem, hstart, hplace, hbehind⟩

/-- **The column is not that in the line**, where the line is indented: the unknown term is in the
fifth column of its line, and the check says the third. -/
theorem column_of_indented : ∃ (l : FileLine) (e : ParseFailure), l.IsIn Sample.indented ∧
    Lines.Counts l.text ∧ Sample.reader.parse l.location l.expression = .error (.parse e) ∧
      e.reason = .unknownTerm "zz." ∧ l.text = "  [(".toList ++ "[zz.])]".toList ∧
      LineColumn.ofOffset l.text (byteLength "  [(".toList) = ⟨1, 5⟩ ∧ e.place = ⟨1, 3⟩ ∧
      (Error.parse e).report = "Error: Parse error: unknown term 'zz.' (at d.ieml:2:1:3)" :=
  ⟨⟨0, 1, "d.ieml", "  [([zz.])]".toList⟩, _, ⟨_, rfl, by decide⟩, by decide, rfl, rfl, by decide,
    by decide, rfl, by decide⟩

end Reader

end Metalanguage
