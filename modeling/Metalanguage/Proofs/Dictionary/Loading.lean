import Metalanguage.Proofs.Dictionary.Accepted
import Metalanguage.Proofs.Ordered.Survivors

/-!
# Proofs/Dictionary/Loading — what is accepted, and how it is tabulated

A list of entries makes a dictionary exactly if it is `Loadable`: every script matches the pattern,
no script comes twice, and relations stay among the scripts (`Dictionary.exists_ofEntries_iff`). The
order of the entries does not matter (`Dictionary.ofEntries_perm`), for the placed entries are
increasing. What the dictionary answers is read off the entries alone
(`Dictionary.tabulates_of_ofEntries`).
-/

namespace Metalanguage

open Std Ordered

/-! ## The pattern -/

namespace Script

/-- The layer marks, each at the place of its layer. -/
def layerMarks : List Char := [':', '.', '-', '\'', ',', '_', ';']

/-- **The pattern of scripts**: any letters and marks, then a layer mark. -/
def Pattern (script : String) : Prop :=
  ∃ body mark, script.toList = body ++ [mark] ∧
    (∀ c ∈ body, c.isAlpha = true ∨ c ∈ [':', '.', '-', '\'', ',', '_', ';', '+']) ∧
    mark ∈ layerMarks

/-- **The layer that a script is in**, which its last character marks. -/
def InLayer (script : String) (layer : ℕ) : Prop :=
  ∃ body mark, script.toList = body ++ [mark] ∧ layerMarks[layer]? = some mark

theorem isScriptChar_iff {c : Char} : isScriptChar c = true ↔
    c.isAlpha = true ∨ c ∈ [':', '.', '-', '\'', ',', '_', ';', '+'] := by
  simp [isScriptChar, isMark, or_assoc]

/-- A mark stands for the layer at whose place it is listed, and nothing else stands for one. -/
theorem layerOfMark?_eq_some_iff {c : Char} {layer : ℕ} :
    layerOfMark? c = some layer ↔ layerMarks[layer]? = some c := by
  constructor
  · intro h
    unfold layerOfMark? at h
    split at h <;> cases h <;> rfl
  · intro h
    match layer with
    | 0 | 1 | 2 | 3 | 4 | 5 | 6 => cases h; rfl
    | layer + 7 => cases h

theorem isSome_layerOfMark? {c : Char} : (layerOfMark? c).isSome = true ↔ c ∈ layerMarks := by
  rw [List.mem_iff_getElem?, Option.isSome_iff_exists]
  exact exists_congr fun _ => layerOfMark?_eq_some_iff

/-- The layer that is read off a script is the one that it is in. -/
theorem layer?_eq_some_iff {script : String} {layer : ℕ} :
    layer? script = some layer ↔ InLayer script layer := by
  rw [layer?, Option.bind_eq_some_iff]
  constructor
  · rintro ⟨mark, hlast, hmark⟩
    obtain ⟨body, htext⟩ := List.getLast?_eq_some_iff.1 hlast
    exact ⟨body, mark, htext, layerOfMark?_eq_some_iff.1 hmark⟩
  · rintro ⟨body, mark, htext, hmark⟩
    exact ⟨mark, by rw [htext, List.getLast?_concat], layerOfMark?_eq_some_iff.2 hmark⟩

/-- A layer mark is a script character, so only the characters before it need a look. -/
theorem isValid_iff_pattern {script : String} : isValid script = true ↔ Pattern script := by
  rw [isValid, Bool.and_eq_true, List.all_eq_true, layer?]
  constructor
  · rintro ⟨hchars, hlayer⟩
    rcases List.eq_nil_or_concat' script.toList with hnil | ⟨body, mark, htext⟩
    · simp [hnil] at hlayer
    · rw [htext, List.getLast?_concat] at hlayer
      refine ⟨body, mark, htext, fun c hc => isScriptChar_iff.1 (hchars c ?_),
        isSome_layerOfMark?.1 hlayer⟩
      simp [htext, hc]
  · rintro ⟨body, mark, htext, hbody, hmark⟩
    rw [htext, List.getLast?_concat]
    refine ⟨fun c hc => ?_, isSome_layerOfMark?.2 hmark⟩
    rcases List.mem_append.1 hc with hc | hc
    · exact isScriptChar_iff.2 (hbody c hc)
    · obtain rfl := List.mem_singleton.1 hc
      have hlisted : c ∈ layerMarks ++ ['+'] := List.mem_append_left _ hmark
      exact isScriptChar_iff.2 (.inr hlisted)

end Script

/-! ## Relations -/

/-- The scripts that an entry relates through a kind; of two lists for one kind the later counts. -/
def TermEntry.targets (e : TermEntry) (kind : String) : List String :=
  (e.relations.reverse.lookup kind).getD []

theorem TermEntry.exists_of_mem_targets {e : TermEntry} {kind script : String}
    (h : script ∈ e.targets kind) : ∃ relation ∈ e.relations, script ∈ relation.2 := by
  rw [targets] at h
  cases hlookup : e.relations.reverse.lookup kind with
  | none => simp [hlookup] at h
  | some scripts =>
    rw [hlookup, Option.getD_some] at h
    obtain ⟨before, behind, hsplit, -⟩ := List.lookup_eq_some_iff.1 hlookup
    exact ⟨(kind, scripts), List.mem_reverse.1 (by simp [hsplit]), h⟩

namespace Relations

theorem lookup_eq_find? (kind : String) : ∀ lists : List (String × List String),
    lists.lookup kind = (lists.find? (compareOn (·.1) (kind, []) · == .eq)).map (·.2)
  | [] => rfl
  | (k, scripts) :: lists => by
    have hkind : (compareOn (·.1) (kind, []) (k, scripts) == .eq) = (kind == k) := by
      rw [Bool.eq_iff_iff, beq_iff_eq, beq_iff_eq]
      exact LawfulEqOrd.compare_eq_iff_eq
    rw [List.lookup_cons, List.find?_cons, hkind]
    cases kind == k with
    | true => rfl
    | false => exact lookup_eq_find? kind lists

/-- A change of the lists leaves each under its kind. -/
theorem lookup_map {g : String × List String → String × List String} {φ : List String → List String}
    (hg : ∀ p, g p = (p.1, φ p.2)) (kind : String) : ∀ lists : List (String × List String),
      (lists.map g).lookup kind = (lists.lookup kind).map φ
  | [] => rfl
  | p :: lists => by
    rw [List.map_cons, hg, List.lookup_cons, List.lookup_cons]
    cases kind == p.1 with
    | true => rfl
    | false => exact lookup_map hg kind lists

/-- **Related scripts are listed once, in order.** -/
theorem get_ofLists (lists : List (String × List String)) (kind : String) :
    (ofLists lists).get kind = keepLast compare ((lists.reverse.lookup kind).getD []) := by
  rw [get, ofLists, lookup_map (fun _ => rfl), lookup_eq_find? kind (keepLast _ _), find?_keepLast,
    ← lookup_eq_find? kind lists.reverse]
  cases lists.reverse.lookup kind <;> rfl

end Relations

/-! ## Placing the entries -/

theorem TermEntry.compare_eq_iff {e f : TermEntry} : e.compare f = .eq ↔ e.script = f.script := by
  change ((compare _ _).then (compare e.script f.script)) = .eq ↔ _
  rw [Ordering.then_eq_eq, LawfulEqOrd.compare_eq_iff_eq, LawfulEqOrd.compare_eq_iff_eq]
  exact ⟨fun h => h.2, fun h => ⟨by rw [h], h⟩⟩

namespace Dictionary

variable {d : Dictionary} {home : ℕ} {version : Option String} {entries : List TermEntry}

theorem has_eq_false_iff {placed : List TermEntry} {e : TermEntry} :
    has TermEntry.compare e placed = false ↔ ∀ f ∈ placed, e.script ≠ f.script := by
  rw [← Bool.not_eq_true, has_iff]
  simp [TermEntry.compare_eq_iff]

theorem place_eq_ok_iff {placed placed' : List TermEntry} {e : TermEntry} :
    place placed e = .ok placed' ↔ Script.isValid e.script = true ∧
      (∀ f ∈ placed, e.script ≠ f.script) ∧ placed' = insertNew TermEntry.compare e placed := by
  rw [place, ← has_eq_false_iff]
  cases Script.isValid e.script <;> cases has TermEntry.compare e placed <;> simp [eq_comm]

/-- **All entries find a place** exactly if their scripts are valid, distinct, and not taken. -/
theorem exists_placed_iff : ∀ {entries placed : List TermEntry},
    (∃ placed', entries.foldlM place placed = .ok placed') ↔
      (∀ e ∈ entries, Script.isValid e.script = true) ∧ (entries.map (·.script)).Nodup ∧
        ∀ e ∈ entries, ∀ f ∈ placed, e.script ≠ f.script
  | [], placed => by simp [pure, Except.pure]
  | e :: entries, placed => by
    have hstep : (∃ placed', (e :: entries).foldlM place placed = .ok placed') ↔
        (Script.isValid e.script = true ∧ ∀ f ∈ placed, e.script ≠ f.script) ∧
          ∃ placed', entries.foldlM place (insertNew TermEntry.compare e placed) = .ok placed' := by
      simp only [List.foldlM_cons, bind_eq_ok_iff, place_eq_ok_iff]
      constructor
      · rintro ⟨placed', _, ⟨hvalid, hnew, rfl⟩, hrest⟩
        exact ⟨⟨hvalid, hnew⟩, placed', hrest⟩
      · rintro ⟨⟨hvalid, hnew⟩, placed', hrest⟩
        exact ⟨placed', _, ⟨hvalid, hnew, rfl⟩, hrest⟩
    have htaken : (∀ f ∈ placed, e.script ≠ f.script) →
        ∀ f, f ∈ insertNew TermEntry.compare e placed ↔ f = e ∨ f ∈ placed := fun hnew f => by
      rw [(insertNew_perm (has_eq_false_iff.2 hnew)).mem_iff, List.mem_cons]
    rw [hstep, exists_placed_iff]
    simp only [List.forall_mem_cons, List.map_cons, List.nodup_cons, List.mem_map, not_exists,
      not_and]
    constructor
    · rintro ⟨⟨hvalid, hnew⟩, hrest, hnodup, hfree⟩
      simp only [htaken hnew, or_imp, forall_and, forall_eq] at hfree
      exact ⟨⟨hvalid, hrest⟩, ⟨hfree.1, hnodup⟩, hnew, hfree.2⟩
    · rintro ⟨⟨hvalid, hrest⟩, ⟨hhead, hnodup⟩, hnew, hfree⟩
      refine ⟨⟨hvalid, hnew⟩, hrest, hnodup, fun f hf g hg => ?_⟩
      rcases (htaken hnew g).1 hg with rfl | hg
      · exact hhead f hf
      · exact hfree f hf g hg

/-- Entries without a dangling relation are related among themselves. -/
theorem findSome?_danglingOf?_eq_none_iff {entries : List TermEntry} :
    entries.findSome? (danglingOf? entries) = none ↔ ∀ e ∈ entries, ∀ relation ∈ e.relations,
      ∀ target ∈ relation.2, ∃ f ∈ entries, f.script = target := by
  simp [List.findSome?_eq_none_iff, danglingOf?]

/-! ## Acceptance -/

/-- **Entries that can be loaded.** -/
structure Loadable (entries : List TermEntry) : Prop where
  pattern : ∀ e ∈ entries, Script.Pattern e.script
  distinct : (entries.map (·.script)).Nodup
  related : ∀ e ∈ entries, ∀ relation ∈ e.relations, ∀ target ∈ relation.2,
    ∃ f ∈ entries, f.script = target

theorem Loadable.perm {entries' : List TermEntry} (h : Loadable entries)
    (hperm : entries.Perm entries') : Loadable entries' where
  pattern := fun e he => h.pattern e (hperm.mem_iff.2 he)
  distinct := (hperm.map _).nodup_iff.1 h.distinct
  related := fun e he relation hrelation target htarget => by
    obtain ⟨f, hf, hscript⟩ := h.related e (hperm.mem_iff.2 he) relation hrelation target htarget
    exact ⟨f, hperm.mem_iff.1 hf, hscript⟩

theorem ofEntries_eq_ok_iff : ofEntries home version entries = .ok d ↔
    ∃ placed, entries.foldlM place [] = .ok placed ∧
      placed.findSome? (danglingOf? placed) = none ∧
        d = ⟨version, home, placed.zipIdx.map fun (e, index) => termOf home e index⟩ := by
  rw [ofEntries, bind_eq_ok_iff]
  refine exists_congr fun placed => and_congr_right fun _ => ?_
  cases placed.findSome? (danglingOf? placed) <;> simp [pure, Except.pure, eq_comm]

/-- **Loading succeeds exactly on loadable entries.** -/
theorem exists_ofEntries_iff : (∃ d, ofEntries home version entries = .ok d) ↔
    Loadable entries := by
  simp only [ofEntries_eq_ok_iff]
  constructor
  · rintro ⟨d, placed, hplaced, hrelated, -⟩
    obtain ⟨hvalid, hdistinct, -⟩ := exists_placed_iff.1 ⟨placed, hplaced⟩
    have hperm : placed.Perm entries := placed_perm hplaced
    refine ⟨fun e he => Script.isValid_iff_pattern.1 (hvalid e he), hdistinct, ?_⟩
    simpa only [hperm.mem_iff] using findSome?_danglingOf?_eq_none_iff.1 hrelated
  · intro h
    have hstart : ∃ placed, entries.foldlM place [] = .ok placed := exists_placed_iff.2
      ⟨fun e he => Script.isValid_iff_pattern.2 (h.pattern e he), h.distinct, by simp⟩
    obtain ⟨placed, hplaced⟩ := hstart
    have hperm : placed.Perm entries := placed_perm hplaced
    exact ⟨_, placed, hplaced, findSome?_danglingOf?_eq_none_iff.2 (h.perm hperm.symm).related, rfl⟩

/-- Entries in place do not remember the order they came in. -/
theorem foldlM_place_perm {entries' placed : List TermEntry} (hperm : entries.Perm entries')
    (h : entries.foldlM place [] = .ok placed) : entries'.foldlM place [] = .ok placed := by
  obtain ⟨hvalid, hdistinct, -⟩ := exists_placed_iff.1 ⟨placed, h⟩
  have hstart : ∃ placed', entries'.foldlM place [] = .ok placed' := exists_placed_iff.2
    ⟨fun e he => hvalid e (hperm.mem_iff.2 he), (hperm.map _).nodup_iff.1 hdistinct, by simp⟩
  obtain ⟨placed', h'⟩ := hstart
  have heq : placed = placed' := by
    refine List.Perm.eq_of_pairwise (fun e f _ _ hef hfe => ?_) (placed_of_foldlM h).increasing
      (placed_of_foldlM h').increasing ((placed_perm h).trans (hperm.trans (placed_perm h').symm))
    rw [OrientedCmp.gt_of_lt hef] at hfe
    cases hfe
  rw [heq, h']

/-- **The order of the entries does not matter.** -/
theorem ofEntries_perm {entries' : List TermEntry} (hperm : entries.Perm entries') :
    ofEntries home version entries = .ok d ↔ ofEntries home version entries' = .ok d := by
  simp only [ofEntries_eq_ok_iff]
  exact exists_congr fun placed =>
    and_congr_left fun _ => ⟨foldlM_place_perm hperm, foldlM_place_perm hperm.symm⟩

/-! ## What a dictionary answers -/

/-- **A dictionary tabulates entries**: it has the terms that they define, each once, numbered in
their order, which goes by the layer and then by the script; it finds each under its script, in the
layer that this marks; and it follows their relations. -/
structure Tabulates (d : Dictionary) (entries : List TermEntry) : Prop where
  distinct : (d.terms.map (·.script)).Nodup
  scripts : ∀ script, script ∈ d.terms.map (·.script) ↔ ∃ e ∈ entries, e.script = script
  index : ∀ (i : ℕ) (t : Term), d.terms[i]? = some t → t.index = i
  order : ∀ t ∈ d.terms, ∀ u ∈ d.terms, compare t u = compare t.index u.index
  byLayer : ∀ t ∈ d.terms, ∀ u ∈ d.terms, compare t.index u.index =
    (compare t.layer u.layer).then (compare t.script u.script)
  missing : ∀ script, (¬ ∃ e ∈ entries, e.script = script) →
    d.term script = .error (.termNotFound script)
  found : ∀ e ∈ entries, ∃ t ∈ d.terms, d.term e.script = .ok t ∧ t.script = e.script ∧
    t.grammaticalClass = e.grammaticalClass ∧ Script.InLayer e.script t.layer ∧
      ∀ kind, Increasing compare (t.relations.get kind) ∧
        ∀ script, script ∈ t.relations.get kind ↔ script ∈ e.targets kind
  related : ∀ t ∈ d.terms, ∀ kind, ∃ us, d.related t kind = .ok us ∧
    (∀ u ∈ us, u ∈ d.terms) ∧ us.map (·.script) = t.relations.get kind

section Answers

variable (hd : ofEntries home version entries = .ok d)

include hd

theorem accepted_of_ofEntries : d.Accepted := ⟨home, version, entries, hd⟩

theorem loadable_of_ofEntries : Loadable entries := exists_ofEntries_iff.1 ⟨d, hd⟩

theorem index_eq_of_getElem? {i : ℕ} {t : Term} (h : d.terms[i]? = some t) : t.index = i := by
  obtain ⟨placed, -, hterms⟩ := exists_of_ofEntries hd
  rw [hterms, List.getElem?_map, List.getElem?_zipIdx] at h
  cases hi : placed[i]? with
  | none => simp [hi] at h
  | some e =>
    simp only [hi, Option.map_some, Option.some.injEq] at h
    rw [← h, termOf, Nat.zero_add]

/-- The script of an entry is looked up, and so is any related one. -/
theorem exists_term_eq {e : TermEntry} (he : e ∈ entries) :
    ∃ index, termOf d.home e index ∈ d.terms ∧ d.term e.script = .ok (termOf d.home e index) := by
  obtain ⟨index, hmem⟩ := exists_termOf_mem hd he
  refine ⟨index, hmem, ?_⟩
  rw [term, show e.script = (termOf d.home e index).script from rfl,
    (accepted_of_ofEntries hd).term?_eq hmem]

theorem exists_related_eq {t : Term} (ht : t ∈ d.terms) (kind : String) :
    ∃ us, d.related t kind = .ok us ∧ (∀ u ∈ us, u ∈ d.terms) ∧
      us.map (·.script) = t.relations.get kind := by
  obtain ⟨e, he, index, rfl⟩ := exists_entry_of_mem hd ht
  have hfound : ∀ script ∈ (termOf d.home e index).relations.get kind,
      ∃ u, d.term script = .ok u ∧ u ∈ d.terms ∧ u.script = script := fun script hscript => by
    have htarget : script ∈ e.targets kind := by
      rw [termOf, Relations.get_ofLists] at hscript
      exact mem_of_mem_keepLast hscript
    obtain ⟨relation, hrelation, hlisted⟩ := TermEntry.exists_of_mem_targets htarget
    obtain ⟨f, hf, rfl⟩ := (loadable_of_ofEntries hd).related e he relation hrelation script hlisted
    obtain ⟨index', hmem, hterm⟩ := exists_term_eq hd hf
    exact ⟨_, hterm, hmem, rfl⟩
  obtain ⟨us, hus⟩ := exists_forall₂ hfound
  refine ⟨us, mapM_eq_ok_iff.2 (hus.imp fun _ _ h => h.1), fun u hu => ?_, ?_⟩
  · obtain ⟨_, -, -, hmem, -⟩ := exists_mem_of_forall₂ hus.flip hu
    exact hmem
  · have hscripts := hus.imp fun _ _ h => h.2.2
    rw [← List.forall₂_eq_eq_eq, List.forall₂_map_left_iff]
    exact hscripts.flip

/-- The order of terms is that of their numbers. -/
theorem compare_eq_compare_index {t u : Term} (ht : t ∈ d.terms) (hu : u ∈ d.terms) :
    compare t u = compare t.index u.index := by
  obtain ⟨i, hi, rfl⟩ := List.getElem_of_mem ht
  obtain ⟨j, hj, rfl⟩ := List.getElem_of_mem hu
  rw [(accepted_of_ofEntries hd).increasing.cmp_getElem hi hj,
    index_eq_of_getElem? hd (List.getElem?_eq_getElem hi),
    index_eq_of_getElem? hd (List.getElem?_eq_getElem hj)]

/-- **What is loaded tabulates its entries.** -/
theorem tabulates_of_ofEntries : d.Tabulates entries where
  distinct := List.pairwise_map.2 <| (accepted_of_ofEntries hd).increasing.imp fun hlt heq => by
    rw [Term.compare_eq_iff.2 heq] at hlt
    cases hlt
  scripts script := by
    rw [List.mem_map]
    constructor
    · rintro ⟨t, ht, rfl⟩
      obtain ⟨e, he, index, rfl⟩ := exists_entry_of_mem hd ht
      exact ⟨e, he, rfl⟩
    · rintro ⟨e, he, rfl⟩
      obtain ⟨index, hmem, -⟩ := exists_term_eq hd he
      exact ⟨_, hmem, rfl⟩
  index _ _ := index_eq_of_getElem? hd
  order _ ht _ hu := compare_eq_compare_index hd ht hu
  byLayer _ ht _ hu := (compare_eq_compare_index hd ht hu).symm
  missing script hmissing := by
    have hnone : d.term? script = none := List.find?_eq_none.2 fun t ht hscript => by
      obtain ⟨e, he, index, rfl⟩ := exists_entry_of_mem hd ht
      exact hmissing ⟨e, he, eq_of_beq hscript⟩
    rw [term, hnone]
  found e he := by
    obtain ⟨index, hmem, hterm⟩ := exists_term_eq hd he
    refine ⟨_, hmem, hterm, rfl, rfl, ?_, fun kind => ?_⟩
    · have hvalid : Script.isValid e.script = true := (accepted_of_ofEntries hd).valid hmem
      obtain ⟨layer, hlayer⟩ := Option.isSome_iff_exists.1 (Bool.and_eq_true_iff.1 hvalid).2
      have hscript : (termOf d.home e index).layer = layer := by
        rw [Term.layer, Script.layer, termOf, hlayer, Option.getD_some]
      exact hscript ▸ Script.layer?_eq_some_iff.1 hlayer
    · -- An entry may list a target twice, but the term has it once.
      rw [termOf, Relations.get_ofLists]
      refine ⟨increasing_keepLast _, fun script => ⟨mem_of_mem_keepLast, fun hscript => ?_⟩⟩
      obtain ⟨script', hmem', hlevel⟩ := exists_mem_keepLast compare hscript
      rwa [LawfulEqOrd.eq_of_compare hlevel]
  related _ := exists_related_eq hd

end Answers

/-- **A term is known by its number.** -/
theorem Accepted.eq_of_index (h : d.Accepted) {t u : Term} (ht : t ∈ d.terms) (hu : u ∈ d.terms)
    (hindex : t.index = u.index) : t = u := by
  refine h.eq_of_level ht hu ?_
  obtain ⟨home, version, entries, hd⟩ := h
  rw [compare_eq_compare_index hd ht hu, hindex, level_self compare]

end Dictionary

end Metalanguage
