import Metalanguage.Dictionary.Basic
import Metalanguage.Proofs.Expression.Order
import Metalanguage.Proofs.Sequencing

/-!
# Proofs/Dictionary/Accepted — what holds of every dictionary that is built

Each entry that is put in place keeps the entries increasing and their scripts valid (`Placed`). So
the terms of a dictionary are increasing, which makes a term known by its script
(`Accepted.eq_of_level`) and found under it (`Accepted.term?_eq`).
-/

namespace Metalanguage

open Std Ordered

namespace TermEntry

instance : TransCmp TermEntry.compare :=
  inferInstanceAs (TransCmp (compareLex (compareOn fun e : TermEntry => Script.layer e.script)
    (compareOn TermEntry.script)))

end TermEntry

namespace Dictionary

/-- Entries in place: increasing, with valid scripts. -/
structure Placed (entries : List TermEntry) : Prop where
  increasing : Increasing TermEntry.compare entries
  valid : ∀ e ∈ entries, Script.isValid e.script = true

theorem Placed.place {placed placed' : List TermEntry} {e : TermEntry} (h : Placed placed)
    (he : place placed e = .ok placed') : Placed placed' := by
  rw [Dictionary.place] at he
  split at he
  · cases he
  · split at he
    · cases he
    · cases he
      refine ⟨increasing_insertNew e h.increasing, fun f hf => ?_⟩
      rcases mem_insertNew hf with rfl | hf
      · simp_all
      · exact h.valid f hf

theorem placed_of_foldlM {entries placed : List TermEntry}
    (h : entries.foldlM place [] = .ok placed) : Placed placed :=
  foldlM_preserves (fun hplaced he => hplaced.place he) ⟨.nil, by simp⟩ h

/-- **A dictionary that some entries make.** -/
def Accepted (d : Dictionary) : Prop :=
  ∃ home version entries, ofEntries home version entries = .ok d

variable {d : Dictionary}

/-- The terms are defined by the entries that are placed, one after the other. -/
theorem exists_of_ofEntries {home : ℕ} {version : Option String} {entries : List TermEntry}
    (hd : ofEntries home version entries = .ok d) : ∃ placed, entries.foldlM place [] = .ok placed ∧
      d.terms = placed.zipIdx.map fun (e, index) => termOf d.home e index := by
  rw [ofEntries] at hd
  obtain ⟨placed, hplaced, hd⟩ := bind_eq_ok_iff.1 hd
  refine ⟨placed, hplaced, ?_⟩
  split at hd <;> cases hd
  rfl

/-- The terms are defined by entries in place. -/
theorem Accepted.exists_placed (h : Accepted d) : ∃ placed, Placed placed ∧
    d.terms = placed.zipIdx.map fun (e, index) => termOf d.home e index := by
  obtain ⟨home, version, entries, hd⟩ := h
  obtain ⟨placed, hplaced, hterms⟩ := exists_of_ofEntries hd
  exact ⟨placed, placed_of_foldlM hplaced, hterms⟩

/-- Each entry that is placed joins those that are. -/
theorem placed_perm : ∀ {entries placed placed' : List TermEntry},
    entries.foldlM place placed = .ok placed' → placed'.Perm (placed ++ entries)
  | [], placed, placed', h => by
    cases h
    exact .of_eq (List.append_nil _).symm
  | e :: entries, placed, placed', h => by
    rw [List.foldlM_cons] at h
    obtain ⟨placed₁, he, hrest⟩ := bind_eq_ok_iff.1 h
    have hstep : placed₁.Perm (e :: placed) := by
      rw [place] at he
      split at he
      · cases he
      · split at he
        · cases he
        · next hnew =>
          cases he
          exact insertNew_perm (by simpa using hnew)
    refine (placed_perm hrest).trans ((hstep.append_right entries).trans ?_)
    exact List.perm_middle.symm

/-- Every term is defined by an entry. -/
theorem exists_entry_of_mem {home : ℕ} {version : Option String} {entries : List TermEntry}
    (hd : ofEntries home version entries = .ok d) {t : Term} (ht : t ∈ d.terms) :
    ∃ e ∈ entries, ∃ index, t = termOf d.home e index := by
  obtain ⟨placed, hplaced, hterms⟩ := exists_of_ofEntries hd
  have hperm : placed.Perm entries := placed_perm hplaced
  rw [hterms] at ht
  obtain ⟨⟨e, index⟩, he, rfl⟩ := List.mem_map.1 ht
  exact ⟨e, hperm.mem_iff.1 (List.fst_mem_of_mem_zipIdx he), index, rfl⟩

/-- Every entry defines a term. -/
theorem exists_termOf_mem {home : ℕ} {version : Option String} {entries : List TermEntry}
    (hd : ofEntries home version entries = .ok d) {e : TermEntry} (he : e ∈ entries) :
    ∃ index, termOf d.home e index ∈ d.terms := by
  obtain ⟨placed, hplaced, hterms⟩ := exists_of_ofEntries hd
  have hperm : placed.Perm entries := placed_perm hplaced
  have hmem : e ∈ placed.zipIdx.map Prod.fst := by
    rw [List.zipIdx_map_fst]
    exact hperm.mem_iff.2 he
  obtain ⟨⟨e, index⟩, hindex, rfl⟩ := List.mem_map.1 hmem
  exact ⟨index, hterms ▸ List.mem_map.2 ⟨(e, index), hindex, rfl⟩⟩

/-- **The terms of a dictionary are those of its entries**, with their scripts and classes. -/
theorem exists_term_iff {home : ℕ} {version : Option String} {entries : List TermEntry}
    (hd : ofEntries home version entries = .ok d) {script : String} {c : GrammaticalClass} :
    (∃ t ∈ d.terms, t.script = script ∧ t.grammaticalClass = c) ↔
      ∃ e ∈ entries, e.script = script ∧ e.grammaticalClass = c := by
  constructor
  · rintro ⟨t, ht, hscript, hclass⟩
    obtain ⟨e, he, index, rfl⟩ := exists_entry_of_mem hd ht
    exact ⟨e, he, hscript, hclass⟩
  · rintro ⟨e, he, hscript, hclass⟩
    obtain ⟨index, hmem⟩ := exists_termOf_mem hd he
    exact ⟨_, hmem, hscript, hclass⟩

/-- **The terms of a dictionary are increasing.** -/
theorem Accepted.increasing (h : Accepted d) : Increasing compare d.terms := by
  obtain ⟨placed, hplaced, hterms⟩ := h.exists_placed
  have hscripts : Increasing Script.compare (placed.map (·.script)) :=
    List.pairwise_map.2 hplaced.increasing
  have hmap : d.terms.map (·.script) = placed.map (·.script) := by
    rw [hterms, List.map_map, ← List.zipIdx_map_fst 0 placed, List.map_map,
      List.zipIdx_map_fst]
    rfl
  rw [← hmap] at hscripts
  exact List.pairwise_map.1 hscripts

theorem Accepted.valid (h : Accepted d) {t : Term} (ht : t ∈ d.terms) :
    Script.isValid t.script = true := by
  obtain ⟨placed, hplaced, hterms⟩ := h.exists_placed
  rw [hterms] at ht
  obtain ⟨⟨e, index⟩, he, rfl⟩ := List.mem_map.1 ht
  exact hplaced.valid e (List.fst_mem_of_mem_zipIdx he)

/-- A term knows the dictionary that it belongs to. -/
theorem Accepted.home_eq (h : Accepted d) {t : Term} (ht : t ∈ d.terms) : t.home = d.home := by
  obtain ⟨placed, -, hterms⟩ := h.exists_placed
  rw [hterms] at ht
  obtain ⟨⟨e, index⟩, -, rfl⟩ := List.mem_map.1 ht
  rfl

/-- **A term is known by its script.** -/
theorem Accepted.eq_of_level (h : Accepted d) {t u : Term} (ht : t ∈ d.terms) (hu : u ∈ d.terms)
    (htu : compare t u = .eq) : t = u :=
  h.increasing.eq_of_level ht hu htu

/-- A term is found under its script. -/
theorem Accepted.term?_eq (h : Accepted d) {t : Term} (ht : t ∈ d.terms) :
    d.term? t.script = some t := by
  obtain ⟨u, hu⟩ : ∃ u, d.term? t.script = some u := by
    refine Option.isSome_iff_exists.1 (List.find?_isSome.2 ⟨t, ht, ?_⟩)
    simp
  have hscript : u.script = t.script := by simpa using List.find?_some hu
  have hut := h.eq_of_level (List.mem_of_find?_eq_some hu) ht (Term.compare_eq_iff.2 hscript)
  rw [hu, hut]

end Dictionary

end Metalanguage
