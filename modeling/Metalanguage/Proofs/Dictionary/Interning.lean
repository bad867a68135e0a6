import Metalanguage.Dictionary.Interning
import Metalanguage.Proofs.Dictionary.Loading

/-!
# Proofs/Dictionary/Interning — tables of handles over whole runs

A lookup finds a handle, finds no definition, or enters a new instance (`Memory.lookUp_cases`); so
it keeps the tables sound (`Memory.Sound.lookUp`), replaces no entry of them (`Memory.keeps_lookUp`)
and returns what the table has then. By induction this holds of any lookups one after the other, at
every point (`Memory.interned`). What handles say of each other is read off the tables at the end.
-/

namespace Metalanguage

open Std Ordered

namespace Memory

variable {ι : Type} {ds : ι → Dictionary} {m m' : Memory ι} {l l' : Lookup ι} {h h' : TermHandle}

/-! ## Sound tables -/

/-- **Tables are sound** where each entry is a handle on the term that its script is defined as,
below all new addresses, and no two entries share an instance. -/
structure Sound (ds : ι → Dictionary) (m : Memory ι) : Prop where
  definition : ∀ {l h}, m.find? l = some h → (ds l.dictionary).term? l.script = some h.term
  below : ∀ {l h}, m.find? l = some h → h.address < m.fresh
  apart : ∀ {l l' h h'}, m.find? l = some h → m.find? l' = some h' → h.address = h'.address →
    l = l'

theorem sound_empty (ds : ι → Dictionary) : (empty : Memory ι).Sound ds := ⟨nofun, nofun, nofun⟩

namespace Sound

variable (hm : m.Sound ds) (hfind : m.find? l = some h) (hfind' : m.find? l' = some h')

include hm hfind

theorem script_eq : h.term.script = l.script := by
  simpa using List.find?_some (hm.definition hfind)

include hfind'

/-- Handles in tables share their instance exactly if they are under one script of one dictionary.
-/
theorem isSame_iff : h.isSame h' = true ↔ l = l' := by
  rw [TermHandle.isSame, beq_iff_eq]
  refine ⟨hm.apart hfind hfind', ?_⟩
  rintro rfl
  rw [Option.some.inj (hfind.symm.trans hfind')]

theorem eq_of_isSame (hsame : h.isSame h' = true) : h = h' := by
  obtain rfl := (hm.isSame_iff hfind hfind').1 hsame
  exact Option.some.inj (hfind.symm.trans hfind')

/-- The shortcut of equality changes nothing. -/
theorem beq_eq : (h == h') = (h.term.canonical == h'.term.canonical) := by
  change (h.isSame h' || _) = _
  cases hsame : h.isSame h' with
  | false => exact Bool.false_or _
  | true => simp [hm.eq_of_isSame hfind hfind' hsame]

/-- The shortcut of the order changes nothing. -/
theorem compare_eq : compare h h' = (compare h.term.layer h'.term.layer).then
    (compare h.term.script h'.term.script) := by
  change (if h.isSame h' then _ else _) = _
  split
  · next hsame =>
    obtain rfl := hm.eq_of_isSame hfind hfind' hsame
    exact (level_self compare h.term).symm
  · rfl

/-- **Handles are on one instance exactly if their terms are the same**, where dictionaries are told
apart by their numbers. -/
theorem isSame_eq (hds : ∀ i, (ds i).Accepted)
    (hhome : ∀ {i j}, (ds i).home = (ds j).home → i = j) :
    h.isSame h' = h.term.isSame h'.term := by
  have ht := List.mem_of_find?_eq_some (hm.definition hfind)
  have ht' := List.mem_of_find?_eq_some (hm.definition hfind')
  rw [Bool.eq_iff_iff, hm.isSame_iff hfind hfind', Term.isSame, Bool.and_eq_true, beq_iff_eq,
    beq_iff_eq, (hds _).home_eq ht, (hds _).home_eq ht']
  constructor
  · rintro rfl
    rw [Option.some.inj (hfind.symm.trans hfind')]
    exact ⟨rfl, rfl⟩
  · rintro ⟨hsame, hindex⟩
    obtain ⟨i, script⟩ := l
    obtain ⟨j, script'⟩ := l'
    obtain rfl : i = j := hhome hsame
    have hscript : h.term.script = h'.term.script := by rw [(hds i).eq_of_index ht ht' hindex]
    rw [hm.script_eq hfind, hm.script_eq hfind'] at hscript
    rw [Lookup.mk.injEq]
    exact ⟨rfl, hscript⟩

end Sound

/-! ## One lookup -/

variable [DecidableEq ι]

theorem find?_enter (m : Memory ι) (l l' : Lookup ι) (t : Term) :
    (m.enter l t).2.find? l' = if l' = l then some ⟨m.fresh, t⟩ else m.find? l' := by
  obtain ⟨i, script⟩ := l
  obtain ⟨i', script'⟩ := l'
  by_cases hi : i' = i
  · subst hi
    have htable : ((script, ⟨m.fresh, t⟩) :: m.tables i').lookup script' =
        if script' = script then some ⟨m.fresh, t⟩ else (m.tables i').lookup script' := by
      rw [List.lookup_cons]
      cases hscript : script' == script with
      | true => rw [if_pos (eq_of_beq hscript)]
      | false => rw [if_neg (ne_of_beq_false hscript)]
    simpa [enter, find?] using htable
  · simp [enter, find?, hi]

/-- **What a lookup can do**: it finds a handle, there is no such term, or it enters an instance. -/
theorem lookUp_cases (ds : ι → Dictionary) (m : Memory ι) (l : Lookup ι) :
    (∃ h, m.find? l = some h ∧ m.lookUp ds l = (.ok h, m)) ∨
      (m.find? l = none ∧ (ds l.dictionary).term? l.script = none ∧
        m.lookUp ds l = (.error (.termNotFound l.script), m)) ∨
      ∃ t, m.find? l = none ∧ (ds l.dictionary).term? l.script = some t ∧
        m.lookUp ds l = (.ok ⟨m.fresh, t⟩, (m.enter l t).2) := by
  cases hfind : m.find? l with
  | some h => exact .inl ⟨h, rfl, by rw [lookUp, hfind]⟩
  | none =>
    cases hterm : (ds l.dictionary).term? l.script with
    | none =>
      refine .inr (.inl ⟨rfl, rfl, ?_⟩)
      rw [lookUp, hfind, settle, Dictionary.term, hterm]
    | some t =>
      refine .inr (.inr ⟨t, rfl, rfl, ?_⟩)
      rw [lookUp, hfind, settle, Dictionary.term, hterm]
      simp only [findOrEnter, hfind]
      rfl

theorem Sound.enter (hm : m.Sound ds) {t : Term} (ht : (ds l.dictionary).term? l.script = some t) :
    (m.enter l t).2.Sound ds where
  definition {l' h} hfind := by
    rw [find?_enter] at hfind
    split at hfind
    · next heq =>
      cases hfind
      rw [heq, ht]
    · exact hm.definition hfind
  below {l' h} hfind := by
    rw [find?_enter] at hfind
    split at hfind
    · cases hfind
      exact Nat.lt_succ_self _
    · exact Nat.lt_succ_of_lt (hm.below hfind)
  apart {l₁ l₂ h₁ h₂} hfind₁ hfind₂ haddress := by
    rw [find?_enter] at hfind₁ hfind₂
    -- the new instance stands where no instance stood
    split at hfind₁ <;> split at hfind₂
    · next heq₁ heq₂ => rw [heq₁, heq₂]
    · cases hfind₁
      exact absurd haddress (Nat.ne_of_gt (hm.below hfind₂))
    · cases hfind₂
      exact absurd haddress (Nat.ne_of_lt (hm.below hfind₁))
    · exact hm.apart hfind₁ hfind₂ haddress

theorem Sound.lookUp (hm : m.Sound ds) (l : Lookup ι) : (m.lookUp ds l).2.Sound ds := by
  obtain ⟨h, -, heq⟩ | ⟨-, -, heq⟩ | ⟨t, -, ht, heq⟩ := lookUp_cases ds m l <;> rw [heq]
  · exact hm
  · exact hm
  · exact hm.enter ht

/-- **Entries stay**: whatever handle the one memory has the other has too. -/
def Keeps (m m' : Memory ι) : Prop := ∀ {l h}, m.find? l = some h → m'.find? l = some h

theorem keeps_lookUp (ds : ι → Dictionary) (m : Memory ι) (l : Lookup ι) :
    m.Keeps (m.lookUp ds l).2 := by
  intro l' h hfind
  obtain ⟨_, -, heq⟩ | ⟨-, -, heq⟩ | ⟨t, hnone, -, heq⟩ := lookUp_cases ds m l <;> rw [heq]
  · exact hfind
  · exact hfind
  · have hne : l' ≠ l := by
      rintro rfl
      rw [hnone] at hfind
      cases hfind
    rwa [find?_enter, if_neg hne]

/-- A handle that is returned is in the table then. -/
theorem find?_of_lookUp (hok : (m.lookUp ds l).1 = .ok h) : (m.lookUp ds l).2.find? l = some h := by
  obtain ⟨h', hfind, heq⟩ | ⟨-, -, heq⟩ | ⟨t, -, -, heq⟩ := lookUp_cases ds m l <;>
    rw [heq] at hok ⊢ <;> cases hok
  · exact hfind
  · rw [find?_enter, if_pos rfl]

/-- A lookup answers as the dictionary does. -/
theorem Sound.map_lookUp (hm : m.Sound ds) (l : Lookup ι) :
    (m.lookUp ds l).1.map (·.term) = (ds l.dictionary).term l.script := by
  obtain ⟨h, hfind, heq⟩ | ⟨-, hnone, heq⟩ | ⟨t, -, ht, heq⟩ := lookUp_cases ds m l <;>
    rw [heq, Dictionary.term]
  · rw [hm.definition hfind]
    rfl
  · rw [hnone]
    rfl
  · rw [ht]
    rfl

/-- **The second half does what a whole lookup does.** So a lookup that others came in between of
takes effect at its end, as if they had come before it. -/
theorem Sound.settle_eq (hm : m.Sound ds) (l : Lookup ι) : m.settle ds l = m.lookUp ds l := by
  cases hfind : m.find? l with
  | some h =>
    rw [Memory.lookUp, hfind, settle, Dictionary.term, hm.definition hfind]
    simp only [findOrEnter, hfind]
  | none => rw [Memory.lookUp, hfind]

/-! ## One lookup after the other -/

theorem Sound.after (hm : m.Sound ds) : ∀ ls : List (Lookup ι), (m.after ds ls).Sound ds := by
  intro ls
  induction ls generalizing m with
  | nil => exact hm
  | cons l ls ih => exact ih (hm.lookUp l)

theorem keeps_after (ds : ι → Dictionary) (ls : List (Lookup ι)) (m : Memory ι) :
    m.Keeps (m.after ds ls) := by
  induction ls generalizing m with
  | nil => exact id
  | cons l ls ih => exact fun hfind => ih _ (keeps_lookUp ds m l hfind)

theorem after_append (ds : ι → Dictionary) (m : Memory ι) (ls more : List (Lookup ι)) :
    m.after ds (ls ++ more) = (m.after ds ls).after ds more := List.foldl_append

/-- **Every handle that was ever returned is in the tables still.** -/
theorem find?_of_mem_log {ls : List (Lookup ι)} (hlog : (l, .ok h) ∈ m.log ds ls) :
    (m.after ds ls).find? l = some h := by
  induction ls generalizing m with
  | nil => cases hlog
  | cons l' ls ih =>
    rcases List.mem_cons.1 hlog with heq | hlog
    · obtain ⟨rfl, hok⟩ := Prod.mk.inj heq
      exact keeps_after ds ls _ (find?_of_lookUp hok.symm)
    · exact ih hlog

/-- Lookups answer as the dictionaries do, one after the other. -/
theorem Sound.map_log (hm : m.Sound ds) (ls : List (Lookup ι)) :
    (m.log ds ls).map (fun entry => entry.2.map (·.term)) =
      ls.map fun l => (ds l.dictionary).term l.script := by
  induction ls generalizing m with
  | nil => rfl
  | cons l ls ih => rw [log, List.map_cons, List.map_cons, hm.map_lookUp l, ih (hm.lookUp l)]

/-! ## Whole runs -/

/-- **What holds after some lookups** of the tables, of all handles that were returned, and of what
is yet to come. -/
structure Interned (ds : ι → Dictionary) (ls : List (Lookup ι)) : Prop where
  definition : ∀ {l h}, (empty.after ds ls).find? l = some h →
    (ds l.dictionary).term? l.script = some h.term ∧ h.term.script = l.script
  stays : ∀ {l h}, (empty.after ds ls).find? l = some h → ∀ more : List (Lookup ι),
    (empty.after ds (ls ++ more)).find? l = some h
  answers : (empty.log ds ls).map (fun entry => entry.2.map (·.term)) =
    ls.map fun l => (ds l.dictionary).term l.script
  /-- A lookup that others come in between of takes effect in its second half. -/
  late : ∀ l, (empty.after ds ls).settle ds l = (empty.after ds ls).lookUp ds l
  same_iff : ∀ {i s t h k}, (⟨i, s⟩, .ok h) ∈ empty.log ds ls → (⟨i, t⟩, .ok k) ∈ empty.log ds ls →
    (h.isSame k = true ↔ h.term.script = k.term.script)
  never_same : ∀ {i j s t h k}, (⟨i, s⟩, .ok h) ∈ empty.log ds ls →
    (⟨j, t⟩, .ok k) ∈ empty.log ds ls → i ≠ j → h.isSame k = false
  /-- Where dictionaries are told apart by their numbers, so are the instances by their terms. -/
  same_eq : (∀ i, (ds i).Accepted) → (∀ {i j}, (ds i).home = (ds j).home → i = j) →
    ∀ {l l' h k}, (l, .ok h) ∈ empty.log ds ls → (l', .ok k) ∈ empty.log ds ls →
      h.isSame k = h.term.isSame k.term
  equality : ∀ {l l' h k}, (l, .ok h) ∈ empty.log ds ls → (l', .ok k) ∈ empty.log ds ls →
    (h == k) = (h.term.canonical == k.term.canonical)
  order : ∀ {l l' h k}, (l, .ok h) ∈ empty.log ds ls → (l', .ok k) ∈ empty.log ds ls →
    compare h k = (compare h.term.layer k.term.layer).then (compare h.term.script k.term.script)

/-- **Every run interns.** -/
theorem interned (ds : ι → Dictionary) (ls : List (Lookup ι)) : Interned ds ls := by
  have hm : (empty.after ds ls).Sound ds := (sound_empty ds).after ls
  refine ⟨fun hfind => ⟨hm.definition hfind, hm.script_eq hfind⟩, fun hfind more => ?_,
    (sound_empty ds).map_log ls, hm.settle_eq, fun hl hl' => ?_, fun hl hl' hne => ?_,
    fun hds hhome _ _ _ _ hl hl' =>
      hm.isSame_eq (find?_of_mem_log hl) (find?_of_mem_log hl') hds hhome,
    fun hl hl' => hm.beq_eq (find?_of_mem_log hl) (find?_of_mem_log hl'),
    fun hl hl' => hm.compare_eq (find?_of_mem_log hl) (find?_of_mem_log hl')⟩
  · rw [after_append]
    exact keeps_after ds more _ hfind
  · have hfind := find?_of_mem_log hl
    have hfind' := find?_of_mem_log hl'
    rw [hm.isSame_iff hfind hfind', hm.script_eq hfind, hm.script_eq hfind', Lookup.mk.injEq]
    exact and_iff_right rfl
  · rw [← Bool.not_eq_true, hm.isSame_iff (find?_of_mem_log hl) (find?_of_mem_log hl')]
    exact fun heq => hne (congrArg Lookup.dictionary heq)

end Memory

end Metalanguage
