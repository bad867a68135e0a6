import Metalanguage.Proofs.Reader.Lockstep
import Metalanguage.Proofs.Reader.Room
import Metalanguage.Proofs.Reader.Within

/-!
# Proofs/Reader/Reread — under its own limits a reader reads what it writes

What is read is written in no more bytes than it was read in, so the limit that admitted the text
admits the written form too. Only a script that stands for a term without brackets is written in
two bytes more, and may then be over the limit (`Reader.reread_under_limits`).
-/

namespace Metalanguage

open Grammar Ordered

/-! ## Scripts without brackets -/

/-- **A text that holds a script**, with any blanks around it, and nothing else. -/
structure HoldsScript (text script : String) : Prop where
  exists_blanks : ∃ blanks blanks', text.toList = blanks ++ (script.toList ++ blanks') ∧
    Blank blanks ∧ Blank blanks'
  ne_nil : script.toList ≠ []
  chars : ∀ c ∈ script.toList, Script.isScriptChar c = true

namespace HoldsScript

variable {text script : String}

/-- A text with another character holds no script alone. -/
theorem blank_or_script (h : HoldsScript text script) :
    ∀ c ∈ text.toList, isBlank c = true ∨ Script.isScriptChar c = true := by
  obtain ⟨blanks, blanks', htext, hblanks, hblanks'⟩ := h.exists_blanks
  rw [htext]
  simp only [List.forall_mem_append]
  exact ⟨fun c hc => .inl (hblanks c hc), fun c hc => .inr (h.chars c hc),
    fun c hc => .inl (hblanks' c hc)⟩

theorem spells (h : HoldsScript text script) : ∃ range,
    Spells Productions.expression 0 text.toList (.part (.term ⟨range, script⟩)) := by
  obtain ⟨blanks, blanks', htext, hblanks, hblanks'⟩ := h.exists_blanks
  have hbare : ∀ o, Spells Productions.bareTerm o script.toList
      ⟨⟨o, o + byteLength script.toList⟩, script⟩ :=
    fun o => ⟨(_, script), ⟨rfl, h.ne_nil, h.chars, by simp⟩, rfl⟩
  exact ⟨_, Productions.spells_expression.2 ⟨blanks, script.toList, blanks', htext, hblanks,
    hblanks', .inr (.inr (.inr (.inr (.inr (.inr (.inr ⟨_, hbare _, rfl⟩))))))⟩⟩

theorem exists_form?_eq (h : HoldsScript text script) :
    ∃ range, Reader.form? text.toList = some (.part (.term ⟨range, script⟩)) := by
  obtain ⟨range, hspells⟩ := h.spells
  exact ⟨range, Reader.form?_eq_some_iff.2 (spells_iff_exists_stands.1 hspells)⟩

end HoldsScript

theorem holdsScript_of_spells {text : String} {blanks cs blanks' : List Char} {o : ℕ}
    {t : TermForm} (htext : text.toList = blanks ++ (cs ++ blanks')) (hblanks : Blank blanks)
    (hblanks' : Blank blanks') (h : Spells Productions.bareTerm o cs t) :
    HoldsScript text (String.ofList cs) := by
  obtain ⟨⟨range, script⟩, ⟨-, hne, hchars, -⟩, -⟩ := h
  have hcs : (String.ofList cs).toList = cs := String.toList_ofList
  exact ⟨⟨blanks, blanks', by rwa [hcs], hblanks, hblanks'⟩, by rwa [hcs], by rwa [hcs]⟩

namespace Reader

variable {r : Reader}

/-! ## Reading the written form -/

/-- **The written form is read** as an expression of the same kind, equal and written alike. -/
def Rereads (r : Reader) (source : String) (x : Expression) : Prop :=
  ∃ y, r.parse source x.display = .ok y ∧ y.kind = x.kind ∧ (y == x) = true ∧
    y.display = x.display

theorem rereads_of_built (hr : r.dictionary.Accepted) (source : String) {x : Expression}
    (hx : x.Built r.dictionary.material) (hnodes : x.SentencesWithin r.limits.maxNodes)
    (hbytes : x.display.utf8ByteSize ≤ r.limits.maxBytes) : r.Rereads source x := by
  obtain ⟨f, hstands, hparse⟩ := r.exists_parse_eq source (hx.writes (hr.legible .written)) hbytes
  obtain ⟨y, hy, hmatch⟩ := hstands.exists_resolve
    (c := ⟨r.dictionary, r.limits.maxNodes, source, x.display.toList⟩) ⟨hr, id⟩ hx hnodes
  have hkind : y.kind = x.kind := (Expression.kind_eq_of_compare hmatch.level).symm
  refine ⟨y, hparse.trans hy, hkind, ?_, hmatch.written.symm⟩
  change (y.kind == x.kind && y.canonical == x.canonical) = true
  rw [hkind, Expression.canonical_congr hmatch.level]
  simp

theorem supplies_material (c : Context) : c.Supplies c.dictionary.material where
  term := id
  literal {l} hl := by
    have hscan := Literal.scan?_append hl []
    rw [String.ofList_toList] at hscan
    exact .scanned hscan

/-- What is read is written in the room of the text, unless the text is a script alone. -/
theorem expressionIn_of_parse {source input : String} {x : Expression}
    (h : r.parse source input = .ok x) :
    ExpressionIn r.dictionary.material input.utf8ByteSize x ∨
      ∃ script, HoldsScript input script := by
  obtain ⟨-, f, hf, hx⟩ := exists_form_of_parse h
  obtain ⟨blanks, cs, blanks', htext, hblanks, hblanks', hcs⟩ :=
    Productions.spells_expression.1 (spells_iff_exists_stands.2 (form?_eq_some_iff.1 hf))
  rcases Productions.yields_of_spells (supplies_material _) hcs with hin | ⟨t, ht, -⟩
  · refine .inl ((hin x hx).mono ?_)
    rw [utf8ByteSize_eq_byteLength, htext]
    simp only [byteLength_append]
    omega
  · exact .inr ⟨_, holdsScript_of_spells htext hblanks hblanks' ht⟩

/-- A script alone is read as its term. -/
theorem exists_term_of_parse {source input script : String} {x : Expression}
    (hscript : HoldsScript input script) (h : r.parse source input = .ok x) :
    ∃ t ∈ r.dictionary.terms, t.script = script ∧ x = .part (.term t) := by
  obtain ⟨-, f, hf, hx⟩ := exists_form_of_parse h
  obtain ⟨range, hform⟩ := hscript.exists_form?_eq
  obtain rfl := Option.some.inj (hf.symm.trans hform)
  obtain ⟨p, hp, rfl⟩ := exists_of_wrapped hx
  obtain ⟨t, ht, rfl⟩ := exists_of_wrapped hp
  exact ⟨t, TermForm.mem_of_resolve ht, TermForm.script_of_resolve ht, rfl⟩

/-- **Under its own limits a reader reads what it writes.** Whatever text is read, other than a
script alone, the expression is written in as many bytes at most, and this form is read as the
expression again. A script alone is written in brackets, and read again exactly if there is room
for them. -/
theorem reread_under_limits (hr : r.dictionary.Accepted) {source input : String} {x : Expression}
    (h : r.parse source input = .ok x) (source' : String) :
    ((¬ ∃ script, HoldsScript input script) →
        x.display.utf8ByteSize ≤ input.utf8ByteSize ∧ r.Rereads source' x) ∧
      ∀ script, HoldsScript input script → x.display = "[" ++ script ++ "]" ∧
        (script.utf8ByteSize + 2 ≤ r.limits.maxBytes → r.Rereads source' x) ∧
        (r.limits.maxBytes < script.utf8ByteSize + 2 → r.parse source' x.display =
          .error (.sizeExceeded .inputBytes r.limits.maxBytes (script.utf8ByteSize + 2))) := by
  have hwithin := sentencesWithin_of_parse h
  refine ⟨fun hno => ?_, fun script hscript => ?_⟩
  · obtain ⟨hbuilt, hsize⟩ := (expressionIn_of_parse h).resolve_right hno
    have hdisplay : x.display.utf8ByteSize ≤ input.utf8ByteSize := hsize .written
    have hbytes := (exists_form_of_parse h).1
    exact ⟨hdisplay, rereads_of_built hr source' hbuilt hwithin (hdisplay.trans hbytes)⟩
  · obtain ⟨t, ht, rfl, rfl⟩ := exists_term_of_parse hscript h
    have hsize : (Expression.part (.term t)).display.utf8ByteSize = t.script.utf8ByteSize + 2 :=
      t.size_canonical
    refine ⟨rfl, fun hle => ?_, fun hlt => ?_⟩
    · exact rereads_of_built hr source' (.part ht) hwithin (hsize.trans_le hle)
    · rw [← hsize] at hlt ⊢
      rw [parse, if_pos hlt]

/-- A word of fourteen bytes, between blanks, and a script of two bytes, each in all the room that
there is: the word is read again, and the script is not. -/
theorem reread_under_limits_word :
    (∃ x, parse ⟨Sample.dictionary, ⟨3, 16⟩⟩ "sample" " [([a.])]<here> " = .ok x ∧
        x.display.utf8ByteSize ≤ 16 ∧ Rereads ⟨Sample.dictionary, ⟨3, 16⟩⟩ "again" x) ∧
      ∃ x, parse ⟨Sample.dictionary, ⟨3, 2⟩⟩ "sample" "a." = .ok x ∧ x.display = "[a.]" ∧
        parse ⟨Sample.dictionary, ⟨3, 2⟩⟩ "again" x.display =
          .error (.sizeExceeded .inputBytes 2 4) := by
  constructor
  · have hread : ∃ x, parse ⟨Sample.dictionary, ⟨3, 16⟩⟩ "sample" " [([a.])]<here> " = .ok x :=
      ⟨_, rfl⟩
    obtain ⟨x, hx⟩ := hread
    refine ⟨x, hx, (reread_under_limits Sample.accepted hx "again").1 ?_⟩
    rintro ⟨script, hscript⟩
    have hbracket := hscript.blank_or_script '[' (by decide)
    exact absurd hbracket (by decide)
  · have hread : ∃ x, parse ⟨Sample.dictionary, ⟨3, 2⟩⟩ "sample" "a." = .ok x := ⟨_, rfl⟩
    obtain ⟨x, hx⟩ := hread
    have hchars : "a.".toList.all Script.isScriptChar = true := rfl
    have hscript : HoldsScript "a." "a." :=
      ⟨⟨[], [], by simp, blank_nil, blank_nil⟩, by decide, List.all_eq_true.1 hchars⟩
    obtain ⟨hdisplay, -, hover⟩ := (reread_under_limits Sample.accepted hx "again").2 _ hscript
    exact ⟨x, hx, hdisplay, hover (by decide)⟩

/-- A script that takes all the room there is has none for its brackets. -/
theorem bare_script_outgrows_limit : ∃ x,
    parse ⟨Sample.dictionary, ⟨3, 2⟩⟩ "sample" "a." = .ok x ∧
      "a.".utf8ByteSize < x.display.utf8ByteSize ∧
      parse ⟨Sample.dictionary, ⟨3, 2⟩⟩ "sample" x.display =
        .error (.sizeExceeded .inputBytes 2 4) :=
  ⟨_, rfl, by decide, rfl⟩

end Reader

end Metalanguage
