import Metalanguage.Proofs.Reader.HypertextLiterals
import Metalanguage.Proofs.Reader.Refusal

/-!
# Proofs/Reader/Suggestion — which bracket a suggestion names

Each closing bracket of a pair belongs to the nearest opening one before it that has none yet
(`Bracket.unpaired`). The scan only counts, so the pair that a suggestion names is the first one with
more brackets of one sort than of the other (`Reader.suggestion_names_unpaired`): where the opening
ones are more, one of them is left open as the advice says, but where the closing ones are more it
may be that none is (`Reader.suggestion_without_open_bracket`).
-/

namespace Metalanguage

namespace Bracket

/-! ## Pairing brackets -/

/-- The places of brackets that have no partner, each sort last first. -/
structure Unpaired where
  openings : List ℕ
  closings : List ℕ
  deriving DecidableEq, Repr

/-- One more character, at the place `i`: a closing bracket takes the last opening one as its partner,
if there is one. -/
def Unpaired.step (u : Unpaired) (b : Bracket) (c : Char) (i : ℕ) : Unpaired :=
  if c = b.opening then { u with openings := i :: u.openings }
  else if c = b.closing then
    match u.openings with
    | [] => { u with closings := i :: u.closings }
    | _ :: openings => { u with openings }
  else u

/-- The brackets without a partner, where a text goes on at the place `i`. -/
def pairFrom (b : Bracket) : ℕ → Unpaired → List Char → Unpaired
  | _, u, [] => u
  | i, u, c :: cs => pairFrom b (i + 1) (u.step b c i) cs

/-- **The brackets of a pair that have no partner** in a text. -/
def unpaired (b : Bracket) (cs : List Char) : Unpaired := b.pairFrom 0 ⟨[], []⟩ cs

variable {b : Bracket}

theorem opening_ne_closing (b : Bracket) : b.opening ≠ b.closing := by cases b <;> decide

/-- One character adds a bracket to one side, or takes one off the other. -/
theorem Unpaired.balance_step (u : Unpaired) (b : Bracket) (c : Char) (i : ℕ) :
    (u.step b c i).openings.length + u.closings.length + [c].count b.closing =
      u.openings.length + (u.step b c i).closings.length + [c].count b.opening := by
  rw [step]
  split_ifs with hopening hclosing
  · simp [hopening, b.opening_ne_closing]
    omega
  · cases u.openings <;> simp [hclosing, b.opening_ne_closing.symm]
    omega
  · simp [hopening, hclosing]

/-- **What is left over of both sorts** makes up for what they differ in. -/
theorem balance_pairFrom (b : Bracket) (cs : List Char) : ∀ (i : ℕ) (u : Unpaired),
    (b.pairFrom i u cs).openings.length + u.closings.length + cs.count b.closing =
      u.openings.length + (b.pairFrom i u cs).closings.length + cs.count b.opening := by
  induction cs with
  | nil => exact fun _ _ => rfl
  | cons c cs ih =>
    intro i u
    have hstep := u.balance_step b c i
    have hrest := ih (i + 1) (u.step b c i)
    rw [pairFrom, ← List.singleton_append, List.count_append, List.count_append]
    omega

/-- **Brackets that are left over** make up for the difference in numbers. -/
theorem balance_unpaired (b : Bracket) (cs : List Char) :
    (b.unpaired cs).openings.length + cs.count b.closing =
      (b.unpaired cs).closings.length + cs.count b.opening := by
  simpa [unpaired] using b.balance_pairFrom cs 0 ⟨[], []⟩

/-- **Brackets of a text** are at these places. -/
structure Unpaired.StandIn (u : Unpaired) (b : Bracket) (text : List Char) : Prop where
  openings : ∀ i ∈ u.openings, text[i]? = some b.opening
  closings : ∀ i ∈ u.closings, text[i]? = some b.closing

/-- One character more: what is left over still stands in the text. -/
theorem Unpaired.StandIn.step {u : Unpaired} {text : List Char} (h : u.StandIn b text) {c : Char}
    {i : ℕ} (hc : text[i]? = some c) : (u.step b c i).StandIn b text := by
  rw [Unpaired.step]
  split_ifs with hopening hclosing
  · exact ⟨List.forall_mem_cons.2 ⟨hopening ▸ hc, h.openings⟩, h.closings⟩
  · obtain ⟨openings, closings⟩ := u
    cases openings with
    | nil => exact ⟨h.openings, List.forall_mem_cons.2 ⟨hclosing ▸ hc, h.closings⟩⟩
    | cons last openings => exact ⟨(List.forall_mem_cons.1 h.openings).2, h.closings⟩
  · exact h

theorem standIn_pairFrom {text : List Char} (cs : List Char) : ∀ (before : List Char) {u : Unpaired},
    text = before ++ cs → u.StandIn b text → (b.pairFrom before.length u cs).StandIn b text := by
  induction cs with
  | nil => exact fun _ _ _ hu => hu
  | cons c cs ih =>
    intro before u htext hu
    have hc : text[before.length]? = some c := by simp [htext]
    have hrest := ih (before ++ [c]) (by simp [htext]) (hu.step hc)
    rwa [List.length_append] at hrest

theorem standIn_unpaired (b : Bracket) (cs : List Char) : (b.unpaired cs).StandIn b cs :=
  standIn_pairFrom cs [] rfl ⟨nofun, nofun⟩

/-! ## The pair that is named -/

/-- **The pair that a suggestion names** for a text: its brackets of one sort are more than those of
the other, and one of these has no partner. The pairs before it have as many of either sort. -/
structure IsNamed (b : Bracket) (text : List Char) : Prop where
  uneven : text.count b.opening ≠ text.count b.closing
  first : ∃ before after, [square, round, curly] = before ++ b :: after ∧
    ∀ a ∈ before, text.count a.opening = text.count a.closing
  left_open : text.count b.closing < text.count b.opening →
    ∃ i ∈ (b.unpaired text).openings, text[i]? = some b.opening
  stray : text.count b.opening < text.count b.closing →
    ∃ i ∈ (b.unpaired text).closings, text[i]? = some b.closing

/-- The pair that is named is the first, in the order in which pairs are counted, whose numbers
differ. -/
theorem unbalanced?_eq_some_iff {cs : List Char} :
    unbalanced? cs = some b ↔ b.IsNamed (outsideLiterals cs) := by
  have hbalance := b.balance_unpaired (outsideLiterals cs)
  have hplaces := b.standIn_unpaired (outsideLiterals cs)
  rw [unbalanced?, List.find?_eq_some_iff_append]
  constructor
  · rintro ⟨huneven, before, after, hpairs, hbefore⟩
    refine ⟨by simpa using huneven, ⟨before, after, hpairs, by simpa using hbefore⟩,
      fun hlt => ?_, fun hlt => ?_⟩
    · have hne : (b.unpaired (outsideLiterals cs)).openings ≠ [] :=
        List.ne_nil_of_length_pos (by omega)
      obtain ⟨i, hi⟩ := List.exists_mem_of_ne_nil _ hne
      exact ⟨i, hi, hplaces.openings i hi⟩
    · have hne : (b.unpaired (outsideLiterals cs)).closings ≠ [] :=
        List.ne_nil_of_length_pos (by omega)
      obtain ⟨i, hi⟩ := List.exists_mem_of_ne_nil _ hne
      exact ⟨i, hi, hplaces.closings i hi⟩
  · rintro ⟨huneven, ⟨before, after, hpairs, hbefore⟩, -, -⟩
    exact ⟨by simpa using huneven, before, after, hpairs, by simpa using hbefore⟩

end Bracket

namespace Reader

variable {r : Reader} {source input : String} {f : ParseFailure} {b : Bracket}

/-- **A suggestion names the first uneven pair**, where the grammar does not read the text, and only
there. If the opening brackets of the pair are more than the closing ones, one is left open. -/
theorem suggestion_names_unpaired (h : r.parse source input = .error (.parse f)) :
    f.suggestion = some b ↔
      (∃ rules, f.reason = .expected rules) ∧
        b.IsNamed (Bracket.outsideLiterals input.toList) := by
  rcases cases_error h with ⟨-, he⟩ | ⟨-, he⟩ | ⟨form, -, hlookup | hbuilt⟩
  · cases he
  · obtain rfl := Error.parse.inj he
    refine Bracket.unbalanced?_eq_some_iff.trans (and_iff_right ?_).symm
    exact ⟨_, rfl⟩
  · obtain ⟨before, t, after, -, -, -, he⟩ := hlookup
    obtain rfl := Error.parse.inj he
    refine iff_of_false nofun ?_
    rintro ⟨⟨rules, hrules⟩, -⟩
    cases hrules
  · cases hbuilt

/-- A round bracket is left open, where the one that would close it stands in a literal. -/
theorem suggestion_names_unpaired_hidden : ∃ f,
    Sample.reader.parse "sample" "[([a.]<)>]" = .error (.parse f) ∧ f.suggestion = some .round ∧
      Bracket.outsideLiterals "[([a.]<)>]".toList = "[([a.]<]".toList ∧
      ∃ i ∈ (Bracket.round.unpaired "[([a.]<]".toList).openings,
        "[([a.]<]".toList[i]? = some '(' := by
  have hread : ∃ f, Sample.reader.parse "sample" "[([a.]<)>]" = .error (.parse f) ∧
      f.suggestion = some .round := ⟨_, rfl, rfl⟩
  obtain ⟨f, hf, hround⟩ := hread
  have hbare : Bracket.outsideLiterals "[([a.]<)>]".toList = "[([a.]<]".toList := by decide
  have hnamed := ((suggestion_names_unpaired hf).1 hround).2
  rw [hbare] at hnamed
  exact ⟨f, hf, hround, hbare, hnamed.left_open (by decide)⟩

/-- **No bracket need be open.** A closing bracket too many brings the advice to close the opening
ones, all of which are closed, and the pair before that of a bracket that is left open. -/
theorem suggestion_without_open_bracket :
    (∃ f, Sample.reader.parse "sample" "[([a.])]]" = .error (.parse f) ∧
      f.suggestion = some .square ∧
      (Bracket.square.unpaired (Bracket.outsideLiterals "[([a.])]]".toList)).openings = []) ∧
    ∃ f, Sample.reader.parse "sample" "([a.]]" = .error (.parse f) ∧
      f.suggestion = some .square ∧
      (Bracket.square.unpaired (Bracket.outsideLiterals "([a.]]".toList)).openings = [] ∧
      (Bracket.round.unpaired (Bracket.outsideLiterals "([a.]]".toList)).openings ≠ [] :=
  ⟨⟨_, rfl, rfl, by decide⟩, _, rfl, rfl, by decide, by decide⟩

end Reader

end Metalanguage
