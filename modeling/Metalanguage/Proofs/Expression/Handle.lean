import Mathlib.Data.List.Dedup
import Metalanguage.Expression.Handle
import Metalanguage.Proofs.Expression.Identity

/-!
# Proofs/Expression/Handle — a hypertext is its set of links

Whatever is done with the handles of a session, each has the distinct links that it was given, and
answers the canonical form of a new hypertext of these (`Session.handles_hold`): what a handle keeps is
what it would write (`Handle.Tracks`), which each operation preserves. So two handles that were given
the same links are equal, in whatever order and with whatever reads in between.
-/

namespace Metalanguage

open List (Forall₂)
open Std Ordered

/-! ## Links that a handle was given -/

/-- The links that each handle was given, after an operation. -/
def Operation.give (given : List (List Hyperlink)) : Operation → List (List Hyperlink)
  | clone i => given ++ given[i]?.toList
  | add i link => given.modify i fun links => links ++ [link]
  | _ => given

/-- **The links that each handle of a session was given.** -/
def Session.given (s : Session) : List (List Hyperlink) :=
  s.operations.foldl Operation.give [s.links]

/-- A session with links that are built. -/
structure Session.Built (s : Session) : Prop where
  links : ∀ l ∈ s.links, l.Built .issued
  added : ∀ {i l}, Operation.add i l ∈ s.operations → l.Built .issued

/-! ## What a handle keeps -/

/-- **A handle on the links that it was given**, with nothing kept but its canonical form. -/
structure Handle.Tracks (h : Handle) (given : List Hyperlink) : Prop where
  ne_nil : h.web.links ≠ []
  built : ∀ l ∈ given, l.Built .issued
  increasing : Increasing compare h.web.links
  mem_given : ∀ l ∈ h.web.links, l ∈ given
  cover : ∀ l ∈ given, ∃ k ∈ h.web.links, compare l k = .eq
  kept : ∀ text ∈ h.kept, text = h.web.canonical

namespace Handle

/-- A new handle is on the links that it was given, and nothing is written yet. -/
theorem tracks_of_ofLinks {links : List Hyperlink} (hbuilt : ∀ l ∈ links, l.Built .issued)
    {h : Handle} (hh : ofLinks links = .ok h) : h.Tracks links := by
  obtain ⟨web, hweb, hh⟩ := bind_eq_ok_iff.1 hh
  cases hh
  obtain ⟨hne, hlinks⟩ := Hypertext.ofLinks_eq_ok_iff.1 hweb
  have hincreasing : Increasing compare web.links := hlinks ▸ increasing_keepLast links
  exact {
    ne_nil := (Hypertext.Built.ofLinks hbuilt hweb).facts.ne_nil
    built := hbuilt
    increasing := hincreasing
    mem_given := fun l hl => mem_of_mem_keepLast (hlinks ▸ hl)
    cover := fun l hl => hlinks ▸ exists_mem_keepLast compare hl
    kept := nofun }

namespace Tracks

variable {h h' : Handle} {given given' : List Hyperlink}

/-- **What a handle answers is what it would write now**, kept or not. -/
theorem canonical_eq (ht : h.Tracks given) : h.canonical = h.web.canonical := by
  cases hkept : h.kept with
  | none => rw [canonical, hkept, Option.getD_none]
  | some text => rw [canonical, hkept, Option.getD_some, ht.kept text hkept]

/-- To read a handle changes what it keeps, and none of what it answers. -/
theorem read (ht : h.Tracks given) : h.read.Tracks given :=
  { ht with kept := fun _ htext => (Option.some.inj htext).symm.trans ht.canonical_eq }

/-- A link that is there already changes nothing. -/
theorem addLink_eq_self (ht : h.Tracks given) {link : Hyperlink} (hl : h.web.hasLink link = true) :
    h.addLink link = (false, h) := by
  have hweb : h.web.addLink link = h.web :=
    congrArg Hypertext.mk (ht.increasing.insertNew_eq hl)
  simp [Handle.addLink, hl, hweb]

/-- **A link is added** to those that were given; what was written before is forgotten only if the
link is new. -/
theorem addLink (ht : h.Tracks given) {link : Hyperlink} (hlink : link.Built .issued) :
    (h.addLink link).2.Tracks (given ++ [link]) := by
  have hbuilt : ∀ l ∈ given ++ [link], l.Built .issued :=
    List.forall_mem_append.2 ⟨ht.built, List.forall_mem_singleton.2 hlink⟩
  cases hl : h.web.hasLink link with
  | true =>
    rw [ht.addLink_eq_self hl]
    refine { ht with built := hbuilt, mem_given := fun l hl => ?_, cover := ?_ }
    · exact List.mem_append_left _ (ht.mem_given l hl)
    · exact List.forall_mem_append.2 ⟨ht.cover, List.forall_mem_singleton.2 (has_iff.1 hl)⟩
  | false =>
    have hkept : (h.addLink link).2.kept = none := by simp [Handle.addLink, hl]
    refine ⟨insertNew_ne_nil _ _ _, hbuilt, increasing_insertNew link ht.increasing, ?_, ?_, ?_⟩
    · intro l hl
      rcases mem_insertNew hl with rfl | hl
      · exact List.mem_append_right _ List.mem_cons_self
      · exact List.mem_append_left _ (ht.mem_given l hl)
    · refine List.forall_mem_append.2 ⟨fun l hl => ?_, List.forall_mem_singleton.2 ?_⟩
      · obtain ⟨k, hk, hlk⟩ := ht.cover l hl
        obtain ⟨k', hk', hkk'⟩ := exists_mem_insertNew compare (x := link) (.inr hk)
        exact ⟨k', hk', TransCmp.eq_trans hlk hkk'⟩
      · exact exists_mem_insertNew compare (.inl rfl)
    · rw [hkept]
      nofun

/-- A link is there when an equal one is. -/
theorem hasLink_iff (ht : h.Tracks given) {link : Hyperlink} (hlink : link.Built .issued) :
    h.web.hasLink link = true ↔ ∃ l ∈ h.web.links, (link == l) = true := by
  have hone := Hyperlink.oneIdentity Stock.legible_issued
  refine has_iff.trans (exists_congr fun l => and_congr_right fun hl => ?_)
  have hbuilt := ht.built l (ht.mem_given l hl)
  exact (hone.compare_iff hlink hbuilt).trans (hone.beq_iff hlink hbuilt).symm

/-- The links of a handle are written as those that it was given, each once. -/
theorem map_canonical_perm (ht : h.Tracks given) :
    (h.web.links.map (·.canonical)).Perm (given.map (·.canonical)).dedup := by
  have hnodup : (h.web.links.map (·.canonical)).Nodup :=
    ht.increasing.nodup.map_on fun l hl k hk hcanonical => by
      have hlevel := (ht.built l (ht.mem_given l hl)).level Stock.legible_issued
        (ht.built k (ht.mem_given k hk)) hcanonical
      exact ht.increasing.eq_of_level hl hk hlevel
  refine (List.perm_ext_iff_of_nodup hnodup (List.nodup_dedup _)).2 fun text => ?_
  rw [List.mem_dedup]
  constructor <;> intro htext <;> obtain ⟨l, hl, rfl⟩ := List.mem_map.1 htext
  · exact List.mem_map_of_mem (ht.mem_given l hl)
  · obtain ⟨k, hk, hlevel⟩ := ht.cover l hl
    exact List.mem_map.2 ⟨k, hk, (Hyperlink.canonical_congr hlevel).symm⟩

/-- Handles that were given the same links have level links. -/
theorem compare_eq (ht : h.Tracks given) (ht' : h'.Tracks given')
    (hsame : ∀ text, text ∈ given.map (·.canonical) ↔ text ∈ given'.map (·.canonical)) :
    compare h.web h'.web = .eq := by
  have hforth : ∀ {h h' : Handle} {given given' : List Hyperlink}, h.Tracks given →
      h'.Tracks given' → (∀ text ∈ given.map (·.canonical), text ∈ given'.map (·.canonical)) →
        ∀ l ∈ h.web.links, ∃ k ∈ h'.web.links, compare l k = .eq := by
    intro h h' given given' ht ht' hsub l hl
    have hgiven := ht.mem_given l hl
    obtain ⟨l', hl', hcanonical⟩ := List.mem_map.1 (hsub _ (List.mem_map_of_mem hgiven))
    obtain ⟨k, hk, hlevel⟩ := ht'.cover l' hl'
    have hll' : compare l l' = .eq :=
      (ht.built l hgiven).level Stock.legible_issued (ht'.built l' hl') hcanonical.symm
    exact ⟨k, hk, TransCmp.eq_trans hll' hlevel⟩
  exact Hypertext.compare_eq_iff.2 (alike_of_increasing ht.increasing ht'.increasing
    (hforth ht ht' fun text => (hsame text).1) (hforth ht' ht fun text => (hsame text).2))

end Tracks

end Handle

/-! ## Sessions -/

/-- A change at one place of two lists keeps what relates them. -/
theorem forall₂_modify {α β : Type} {R : α → β → Prop} {f : α → α} {g : β → β}
    (hfg : ∀ {a b}, R a b → R (f a) (g b)) {l : List α} {m : List β} (h : Forall₂ R l m) (i : ℕ) :
    Forall₂ R (l.modify i f) (m.modify i g) := by
  induction h generalizing i with
  | nil => simp
  | cons hab h ih =>
    cases i with
    | zero => exact .cons (hfg hab) h
    | succ i => exact .cons hab (ih i)

theorem forall₂_toList_getElem? {α β : Type} {R : α → β → Prop} {l : List α} {m : List β}
    (h : Forall₂ R l m) (i : ℕ) : Forall₂ R l[i]?.toList m[i]?.toList := by
  induction h generalizing i with
  | nil => simp
  | cons hab h ih =>
    cases i with
    | zero => exact .cons hab .nil
    | succ i => exact ih i

/-- **An operation preserves** that handles are on the links that they were given. -/
theorem Operation.step_tracks {op : Operation} (hop : ∀ {i l}, op = .add i l → l.Built .issued)
    {handles : List Handle} {given : List (List Hyperlink)}
    (h : Forall₂ Handle.Tracks handles given) :
    Forall₂ Handle.Tracks (op.step handles) (op.give given) := by
  have hread : ∀ {handles : List Handle} (i : ℕ), Forall₂ Handle.Tracks handles given →
      Forall₂ Handle.Tracks (handles.modify i Handle.read) given := fun i h => by
    simpa using forall₂_modify (g := id) (fun ht => ht.read) h i
  cases op with
  | read i => exact hread i h
  | equal i j => exact hread j (hread i h)
  | order => exact h
  | clone i => exact List.rel_append h (forall₂_toList_getElem? h i)
  | add i link => exact forall₂_modify (fun ht => ht.addLink (hop rfl)) h i

/-- **Handles are on the links that they were given**, whatever is done in a session. -/
theorem Session.handles_track {s : Session} (hs : s.Built) {handles : List Handle}
    (h : s.handles = .ok handles) : Forall₂ Handle.Tracks handles s.given := by
  obtain ⟨start, hstart, h⟩ := bind_eq_ok_iff.1 h
  cases h
  suffices hall : ∀ {ops : List Operation}, (∀ {i l}, .add i l ∈ ops → l.Built .issued) →
      ∀ {handles given}, Forall₂ Handle.Tracks handles given →
        Forall₂ Handle.Tracks (ops.foldl Operation.step handles) (ops.foldl Operation.give given) from
    hall hs.added (.cons (Handle.tracks_of_ofLinks hs.links hstart) .nil)
  intro ops hops
  induction ops with
  | nil => exact fun h => h
  | cons op ops ih =>
    intro handles given h
    exact ih (fun hmem => hops (List.mem_cons_of_mem _ hmem))
      (op.step_tracks (fun hop => hops (List.mem_cons.2 (.inl hop.symm))) h)

/-! ## What a handle promises -/

/-- **What a handle promises** that was given some links. -/
structure Handle.Holds (h : Handle) (given : List Hyperlink) : Prop where
  /-- What it answers is what a new hypertext of its links is written as. -/
  fresh : ∃ new, ofLinks h.web.links = .ok new ∧ h.canonical = new.canonical
  /-- Its links are the distinct ones that it was given. -/
  size : h.web.size = (given.map (·.canonical)).dedup.length
  /-- A link that is added is new when no equal one is there. -/
  inserted : ∀ link, link.Built .issued →
    ((h.addLink link).1 = true ↔ ∀ l ∈ h.web.links, (link == l) = false)
  /-- One that is not new changes nothing. -/
  unchanged : ∀ link, (h.addLink link).1 = false → (h.addLink link).2 = h

/-- A handle that is on its links keeps all its promises. -/
theorem Handle.Tracks.holds {h : Handle} {given : List Hyperlink} (ht : h.Tracks given) :
    h.Holds given where
  fresh := by
    have hweb : Hypertext.ofLinks h.web.links = .ok h.web :=
      Hypertext.ofLinks_eq_ok_iff.2 ⟨ht.ne_nil, ht.increasing.keepLast_eq.symm⟩
    exact ⟨⟨h.web, none⟩, bind_eq_ok_iff.2 ⟨_, hweb, rfl⟩, ht.canonical_eq⟩
  size := by simpa [Hypertext.size] using ht.map_canonical_perm.length_eq
  inserted link hlink := by
    change (!h.web.hasLink link) = true ↔ _
    rw [Bool.not_eq_true', ← Bool.not_eq_true, ht.hasLink_iff hlink]
    simp
  unchanged link hl := by
    have hnot : (!h.web.hasLink link) = false := hl
    rw [ht.addLink_eq_self (by simpa using hnot)]

/-- **A hypertext is its set of links**, and answers no stale form. -/
theorem Session.handles_hold :
    (∀ {s : Session}, s.Built → s.links ≠ [] →
        ∃ handles, s.handles = .ok handles ∧ Forall₂ Handle.Holds handles s.given) ∧
      ∀ {s s' : Session} {handles handles' : List Handle}, s.Built → s'.Built →
        s.handles = .ok handles → s'.handles = .ok handles' →
          ∀ {h h' given given'}, (h, given) ∈ handles.zip s.given →
            (h', given') ∈ handles'.zip s'.given →
              (∀ text, text ∈ given.map (·.canonical) ↔ text ∈ given'.map (·.canonical)) →
                (h == h') = true ∧ compare h h' = .eq ∧ h.canonical = h'.canonical := by
  constructor
  · intro s hs hne
    have hweb : Hypertext.ofLinks s.links = .ok ⟨keepLast compare s.links⟩ :=
      Hypertext.ofLinks_eq_ok_iff.2 ⟨hne, rfl⟩
    have hhandles : s.handles =
        .ok (s.operations.foldl Operation.step [⟨⟨keepLast compare s.links⟩, none⟩]) :=
      bind_eq_ok_iff.2 ⟨_, bind_eq_ok_iff.2 ⟨_, hweb, rfl⟩, rfl⟩
    exact ⟨_, hhandles, (handles_track hs hhandles).imp fun _ _ ht => ht.holds⟩
  · intro s s' handles handles' hs hs' hh hh' h h' given given' hmem hmem' hsame
    have ht := List.forall₂_zip (handles_track hs hh) hmem
    have ht' := List.forall₂_zip (handles_track hs' hh') hmem'
    have hlevel := ht.compare_eq ht' hsame
    have hcanonical : h.canonical = h'.canonical := by
      rw [ht.canonical_eq, ht'.canonical_eq, Hypertext.canonical_congr hlevel]
    have hbeq : (h.canonical == h'.canonical) = true := beq_iff_eq.2 hcanonical
    exact ⟨hbeq, hlevel, hcanonical⟩

/-! ## A sample -/

namespace Sample

/-- A link from a text of one word to another one. -/
def wordLink (w v : Word) : Hyperlink := ⟨⟨[.word w]⟩, ⟨[.word v]⟩, ⟨.word w, []⟩⟩

theorem wordLink_built {k : Stock} {w v : Word} (hw : w.Built k) (hv : v.Built k) :
    (wordLink w v).Built k := by
  have hpart : ∀ {w : Word}, w.Built k → (Proposition.word w).toPart.Built k := fun h => h
  have htext : ∀ {w : Word}, w.Built k → Text.Built k ⟨[.word w]⟩ := fun h =>
    .ofPropositions (List.forall_mem_singleton.2 (hpart h)) rfl
  have hpath : Path.Built k (wordLink w v).anchor.path :=
    .ofSteps (List.forall_mem_singleton.2 (.part (hpart hw))) rfl
  exact .along (htext hw) (htext hv) hpath
    (Anchor.along_eq _ ⟨_, List.mem_cons_self, level_self compare _⟩)

/-- A link between two words, of which the first carries a literal. -/
def there : Hyperlink := wordLink (word (noun "a." 0) [.ofText "here"]) (word (noun "b." 1) [])

/-- A link back. -/
def back : Hyperlink := wordLink (word (noun "b." 1) []) (word (noun "a." 0) [])

theorem links_built : there.Built .issued ∧ back.Built .issued := by
  have hword : ∀ {t : Term}, t ∈ dictionary.terms → ∀ literals : List Literal,
      (word t literals).Built .issued := fun ht _ =>
    word_built ⟨dictionary, accepted, ht⟩ fun _ _ => trivial
  have ha := hword (t := noun "a." 0) List.mem_cons_self
  have hb := hword (t := noun "b." 1) (List.mem_cons_of_mem _ List.mem_cons_self)
  exact ⟨wordLink_built (ha _) (hb _), wordLink_built (hb _) (ha _)⟩

/-- The second link comes when the first one was written. -/
def forthAndBack : Session := ⟨[there], [.read 0, .add 0 back]⟩

/-- The first link comes to a clone of the second, twice. -/
def backAndForth : Session := ⟨[back], [.clone 0, .equal 0 1, .add 1 there, .add 1 there]⟩

theorem forthAndBack_built : forthAndBack.Built where
  links := List.forall_mem_singleton.2 links_built.1
  added {i l} h := by
    obtain ⟨-, rfl⟩ : i = 0 ∧ l = back := by simpa [forthAndBack] using h
    exact links_built.2

theorem backAndForth_built : backAndForth.Built where
  links := List.forall_mem_singleton.2 links_built.2
  added {i l} h := by
    obtain ⟨-, rfl⟩ : i = 1 ∧ l = there := by simpa [backAndForth] using h
    exact links_built.1

end Sample

/-- Two links that come in either order. -/
theorem Session.handles_hold_links : ∃ h k k', Sample.forthAndBack.handles = .ok [h] ∧
    Sample.backAndForth.handles = .ok [k, k'] ∧ h.Holds [Sample.there, Sample.back] ∧
      (h == k') = true ∧ compare h k' = .eq ∧ h.canonical = k'.canonical := by
  have hforth := Sample.forthAndBack_built
  have hback := Sample.backAndForth_built
  obtain ⟨handles, hh, hholds⟩ := handles_hold.1 hforth (List.cons_ne_nil _ _)
  obtain ⟨handles', hh', hholds'⟩ := handles_hold.1 hback (List.cons_ne_nil _ _)
  obtain _ | @⟨h, _, _, _, hholds, _ | _⟩ :
    Forall₂ Handle.Holds handles [[Sample.there, Sample.back]] := hholds
  obtain _ | @⟨k, _, _, _, -, _ | @⟨k', _, _, _, -, _ | _⟩⟩ : Forall₂ Handle.Holds handles'
    [[Sample.back], [Sample.back, Sample.there, Sample.there]] := hholds'
  refine ⟨h, k, k', hh, hh', hholds, handles_hold.2 hforth hback hh hh' List.mem_cons_self
    (List.mem_cons_of_mem _ List.mem_cons_self) fun text => ?_⟩
  simp [Sample.forthAndBack, Sample.backAndForth, or_comm]

end Metalanguage
