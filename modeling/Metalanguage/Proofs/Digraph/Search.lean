import Metalanguage.Digraph.Tables
import Metalanguage.Proofs.Digraph.Cycles
import Metalanguage.Proofs.Loop

/-!
# Proofs/Digraph/Search — the search over tables does nothing twice, and ends

`Search.Step` says once what a round of the search can do. What has been done shows in the marks and
on the path (`Search.Did`), and a round does only what has not been done (`Search.Sound.step`): a
vertex is looked at, pushed and popped once at most, and an arc is followed once at most, over all
starts. So the search has a bound for its rounds, and asks for no place that its tables do not have
(`Search.exists_loop_eq`).
-/

namespace Metalanguage.Digraph

variable {g : Tables}

namespace Tables

/-! ## Tables that fit together -/

/-- The vertices that the arcs out of a vertex lead to, in the order of the arcs. -/
def next (g : Tables) (v : ℕ) : List ℕ := (g.leaving.getD v []).filterMap (g.heads[·]?)

/-- An arc is listed at a vertex as the one that is followed behind `k` others. -/
def At (g : Tables) (v k arc : ℕ) : Prop :=
  ∃ arcs, g.leaving[v]? = some arcs ∧ arcs[k]? = some arc

/-- **Tables that fit together**: what leaves a vertex is an arc, an arc leads to a vertex, and no arc
leaves twice. -/
structure Fit (g : Tables) : Prop where
  arc_lt : ∀ arcs ∈ g.leaving, ∀ arc ∈ arcs, arc < g.heads.length
  head_lt : ∀ w ∈ g.heads, w < g.leaving.length
  nodup : g.leaving.flatten.Nodup

namespace Fit

variable (hg : g.Fit)

include hg

theorem lt_of_at {v k arc : ℕ} (h : g.At v k arc) : arc < g.heads.length := by
  obtain ⟨arcs, harcs, harc⟩ := h
  exact hg.arc_lt arcs (List.mem_of_getElem? harcs) arc (List.mem_of_getElem? harc)

/-- **An arc has one place.** -/
theorem at_unique {v v' k k' arc : ℕ} (h : g.At v k arc) (h' : g.At v' k' arc) :
    v = v' ∧ k = k' := by
  obtain ⟨arcs, harcs, harc⟩ := h
  obtain ⟨arcs', harcs', harc'⟩ := h'
  obtain ⟨hnodup, hdisjoint⟩ := List.nodup_flatten.1 hg.nodup
  obtain ⟨hv, hget⟩ := List.getElem?_eq_some_iff.1 harcs
  obtain ⟨hv', hget'⟩ := List.getElem?_eq_some_iff.1 harcs'
  have hmem : arc ∈ g.leaving[v] := hget ▸ List.mem_of_getElem? harc
  have hmem' : arc ∈ g.leaving[v'] := hget' ▸ List.mem_of_getElem? harc'
  obtain rfl : v = v' := by
    rcases lt_trichotomy v v' with hlt | heq | hlt
    · exact absurd hmem' (List.pairwise_iff_getElem.1 hdisjoint v v' hv hv' hlt hmem)
    · exact heq
    · exact absurd hmem (List.pairwise_iff_getElem.1 hdisjoint v' v hv' hv hlt hmem')
  obtain rfl : arcs = arcs' := hget.symm.trans hget'
  have hk := (List.getElem?_eq_some_iff.1 harc).1
  have hdistinct : arcs.Nodup := hnodup arcs (List.mem_of_getElem? harcs)
  exact ⟨rfl, (List.getElem?_inj hk hdistinct).1 (harc.trans harc'.symm)⟩

/-- The arcs out of a vertex lead to its successors, one by one. -/
theorem forall₂_next {v : ℕ} {arcs : List ℕ} (h : g.leaving[v]? = some arcs) :
    List.Forall₂ (fun arc w => g.heads[arc]? = some w) arcs (g.next v) := by
  rw [next, List.getD_eq_getElem?_getD, h]
  exact forall₂_filterMap_of_isSome fun arc harc => by
    simpa using hg.arc_lt arcs (List.mem_of_getElem? h) arc harc

theorem within : Within g.next g.leaving.length := by
  intro v w hw
  obtain ⟨arc, harc, hhead⟩ := List.mem_filterMap.1 hw
  refine ⟨?_, hg.head_lt w (List.mem_of_getElem? hhead)⟩
  by_contra hv
  rw [List.getD_eq_getElem?_getD, List.getElem?_eq_none (Nat.not_lt.1 hv)] at harc
  cases harc

end Fit

end Tables

/-! ## Marks -/

/-- A vertex has a mark. -/
abbrev Marked (marks : List Bool) (v : ℕ) : Prop := marks[v]? = some true

theorem Marked.lt {marks : List Bool} {v : ℕ} (h : Marked marks v) : v < marks.length :=
  (List.getElem?_eq_some_iff.1 h).1

theorem marked_set_true {marks : List Bool} {v u : ℕ} (hv : v < marks.length) :
    Marked (marks.set v true) u ↔ u = v ∨ Marked marks u := by
  by_cases huv : v = u
  · subst huv
    simp [Marked, List.getElem?_set_self hv]
  · simp [Marked, List.getElem?_set_ne huv, Ne.symm huv]

theorem marked_set_false {marks : List Bool} {v u : ℕ} :
    Marked (marks.set v false) u ↔ u ≠ v ∧ Marked marks u := by
  by_cases huv : v = u
  · subst huv
    simp [Marked, List.getElem?_set]
  · simp [Marked, List.getElem?_set_ne huv, Ne.symm huv]

theorem entry_of_marked {marks : List Bool} {v : ℕ} (h : Marked marks v) :
    Table.entry marks v = .ok true := Table.entry_eq h

theorem entry_of_not_marked {marks : List Bool} {v : ℕ} (hv : v < marks.length)
    (h : ¬ Marked marks v) : Table.entry marks v = .ok false := by
  have hget := List.getElem?_eq_getElem hv
  cases hmark : marks[v] with
  | true =>
    rw [hmark] at hget
    exact absurd hget h
  | false =>
    rw [hmark] at hget
    exact Table.entry_eq hget

namespace Search

/-! ## What a round does -/

/-- **A round of the search** can do this, and no more. -/
inductive Step (g : Tables) (s : Search) : Turn Search (Option (List ℕ)) → Prop
  /-- The next start is settled already. -/
  | skip (hpath : s.path = []) (hstart : s.start < g.leaving.length)
      (hsettled : Marked s.settled s.start) :
      Step g s (.again { s with start := s.start + 1, done := .look s.start :: s.done })
  /-- The next start is not, and the path starts there. -/
  | enter (hpath : s.path = []) (hstart : s.start < g.leaving.length)
      (hsettled : ¬ Marked s.settled s.start) :
      Step g s (.again { s with
        start := s.start + 1, visiting := s.visiting.set s.start true, path := [(s.start, 0)],
        done := .push s.start :: .look s.start :: s.done })
  /-- No start is left. -/
  | finish (hpath : s.path = []) (hstart : g.leaving.length ≤ s.start) : Step g s (.stop s none)
  /-- The next arc leads back to the path. -/
  | close {v k : ℕ} {rest : List (ℕ × ℕ)} {arc w : ℕ} (hpath : s.path = (v, k) :: rest)
      (hat : g.At v k arc) (hhead : g.heads[arc]? = some w) (hvisiting : Marked s.visiting w) :
      Step g s (.stop { s with path := (v, k + 1) :: rest, done := .follow arc :: s.done }
        (some (closing ((v, k + 1) :: rest) w)))
  /-- The next arc leads to a vertex that is settled. -/
  | pass {v k : ℕ} {rest : List (ℕ × ℕ)} {arc w : ℕ} (hpath : s.path = (v, k) :: rest)
      (hat : g.At v k arc) (hhead : g.heads[arc]? = some w) (hvisiting : ¬ Marked s.visiting w)
      (hsettled : Marked s.settled w) :
      Step g s (.again { s with path := (v, k + 1) :: rest, done := .follow arc :: s.done })
  /-- The next arc leads to a new vertex, which becomes the tip of the path. -/
  | push {v k : ℕ} {rest : List (ℕ × ℕ)} {arc w : ℕ} (hpath : s.path = (v, k) :: rest)
      (hat : g.At v k arc) (hhead : g.heads[arc]? = some w) (hvisiting : ¬ Marked s.visiting w)
      (hsettled : ¬ Marked s.settled w) :
      Step g s (.again { s with
        visiting := s.visiting.set w true, path := (w, 0) :: (v, k + 1) :: rest,
        done := .push w :: .follow arc :: s.done })
  /-- All arcs of the tip have been followed. -/
  | pop {v k : ℕ} {rest : List (ℕ × ℕ)} {arcs : List ℕ} (hpath : s.path = (v, k) :: rest)
      (harcs : g.leaving[v]? = some arcs) (hend : arcs.length ≤ k) :
      Step g s (.again { s with
        visiting := s.visiting.set v false, settled := s.settled.set v true, path := rest,
        done := .pop v :: s.done })

/-- The marks are there for all vertices. -/
structure Sized (g : Tables) (s : Search) : Prop where
  settled : s.settled.length = g.leaving.length
  visiting : s.visiting.length = g.leaving.length

/-- **The round does what the step says**, and every place that it asks for is there. -/
theorem Step.round_eq {s : Search} {turn : Turn Search (Option (List ℕ))} (hg : g.Fit)
    (hs : s.Sized g) (h : Step g s turn) : s.round g = .ok turn := by
  -- An arc leads to a vertex, so both of its marks are there.
  have hlt : ∀ {arc w : ℕ}, g.heads[arc]? = some w →
      w < s.settled.length ∧ w < s.visiting.length := fun hhead => by
    rw [hs.settled, hs.visiting]
    exact ⟨hg.head_lt _ (List.mem_of_getElem? hhead), hg.head_lt _ (List.mem_of_getElem? hhead)⟩
  cases h with
  | skip hpath hstart hsettled =>
    simp only [round, hpath, restart, hstart, if_true, entry_of_marked hsettled, ok_bind]
    rfl
  | enter hpath hstart hsettled =>
    simp only [round, hpath, restart, hstart, if_true, ok_bind,
      entry_of_not_marked (hs.settled ▸ hstart) hsettled, Table.put_eq (hs.visiting ▸ hstart)]
    rfl
  | finish hpath hstart =>
    simp only [round, hpath, restart, Nat.not_lt.2 hstart, if_false]
    rfl
  | close hpath hat hhead hvisiting =>
    obtain ⟨arcs, harcs, harc⟩ := hat
    simp only [round, hpath, advance, Table.entry_eq harcs, Table.entry_eq hhead, harc, ok_bind,
      entry_of_marked hvisiting, if_true]
    rfl
  | pass hpath hat hhead hvisiting hsettled =>
    obtain ⟨arcs, harcs, harc⟩ := hat
    simp only [round, hpath, advance, Table.entry_eq harcs, Table.entry_eq hhead, harc, ok_bind,
      entry_of_not_marked (hlt hhead).2 hvisiting, entry_of_marked hsettled, if_true]
    rfl
  | push hpath hat hhead hvisiting hsettled =>
    obtain ⟨arcs, harcs, harc⟩ := hat
    simp only [round, hpath, advance, Table.entry_eq harcs, Table.entry_eq hhead, harc, ok_bind,
      entry_of_not_marked (hlt hhead).2 hvisiting, entry_of_not_marked (hlt hhead).1 hsettled,
      Table.put_eq (hlt hhead).2]
    rfl
  | pop hpath harcs hend =>
    have hv := (List.getElem?_eq_some_iff.1 harcs).1
    simp only [round, hpath, advance, Table.entry_eq harcs, List.getElem?_eq_none hend, ok_bind,
      Table.put_eq (hs.visiting ▸ hv), Table.put_eq (hs.settled ▸ hv)]
    rfl

/-! ## What has been done -/

/-- **What has been done shows** in the marks and on the path. -/
def Did (g : Tables) (s : Search) : Act → Prop
  | .look v => v < s.start
  | .push v => Marked s.visiting v ∨ Marked s.settled v
  | .follow arc => ∃ v k, g.At v k arc ∧ (Marked s.settled v ∨ ∃ c, (v, c) ∈ s.path ∧ k < c)
  | .pop v => Marked s.settled v

/-- **The state of a search**: a vertex is visited exactly on the path, which meets it once, and not
settled then; what has been done has been done once, and shows. -/
structure Sound (g : Tables) (s : Search) : Prop extends Sized g s where
  start_le : s.start ≤ g.leaving.length
  visiting_iff : ∀ v, Marked s.visiting v ↔ v ∈ s.path.map (·.1)
  apart : ∀ v, Marked s.visiting v → ¬ Marked s.settled v
  path_nodup : (s.path.map (·.1)).Nodup
  done_nodup : s.done.Nodup
  did : ∀ act ∈ s.done, s.Did g act

theorem sound_initial (g : Tables) : (initial g).Sound g where
  settled := List.length_replicate
  visiting := List.length_replicate
  start_le := Nat.zero_le _
  visiting_iff v := by simp [initial, Marked, List.getElem?_replicate]
  apart v := by simp [initial, Marked, List.getElem?_replicate]
  path_nodup := List.nodup_nil
  done_nodup := List.nodup_nil
  did := nofun

/-- **One state comes after another**: no mark is lost but that of a vertex that is settled, and no
vertex on the path goes back to an arc. -/
structure After (s t : Search) : Prop where
  start_le : s.start ≤ t.start
  settled : ∀ {v : ℕ}, Marked s.settled v → Marked t.settled v
  visiting : ∀ {v : ℕ}, Marked s.visiting v → Marked t.visiting v ∨ Marked t.settled v
  path : ∀ {v c : ℕ}, (v, c) ∈ s.path → Marked t.settled v ∨ ∃ d, (v, d) ∈ t.path ∧ c ≤ d

/-- What has been done stays done. -/
theorem Did.after {s t : Search} (h : After s t) : ∀ {act : Act}, s.Did g act → t.Did g act
  | .look _, hdid => Nat.lt_of_lt_of_le hdid h.start_le
  | .push v, hdid => hdid.elim h.visiting fun hdid => .inr (h.settled hdid)
  | .follow arc, ⟨v, k, hat, hdid⟩ => by
    refine ⟨v, k, hat, ?_⟩
    rcases hdid with hdid | ⟨c, hc, hkc⟩
    · exact .inl (h.settled hdid)
    · exact (h.path hc).imp_right fun ⟨d, hd, hcd⟩ => ⟨d, hd, Nat.lt_of_lt_of_le hkc hcd⟩
  | .pop _, hdid => h.settled hdid

namespace Sound

variable {s : Search} (hs : s.Sound g)

include hs

/-- Nothing is done twice if what is new has not been done before. -/
theorem log {t : Search} {act : Act} (hafter : After s t) (hdone : t.done = act :: s.done)
    (hnew : ¬ s.Did g act) (hdid : t.Did g act) :
    t.done.Nodup ∧ ∀ act ∈ t.done, t.Did g act := by
  rw [hdone]
  exact ⟨List.nodup_cons.2 ⟨fun h => hnew (hs.did act h), hs.done_nodup⟩,
    List.forall_mem_cons.2 ⟨hdid, fun act h => (hs.did act h).after hafter⟩⟩

/-- The tip of the path is a vertex that is not settled. -/
theorem tip {v k : ℕ} {rest : List (ℕ × ℕ)} (hpath : s.path = (v, k) :: rest) :
    Marked s.visiting v ∧ ¬ Marked s.settled v ∧ v < g.leaving.length := by
  have hvisiting : Marked s.visiting v := (hs.visiting_iff v).2 (by simp [hpath])
  exact ⟨hvisiting, hs.apart v hvisiting, hs.visiting ▸ hvisiting.lt⟩

/-- The arc that is next at the tip of the path has not been followed. -/
theorem not_did_follow (hg : g.Fit) {v k arc : ℕ} {rest : List (ℕ × ℕ)}
    (hpath : s.path = (v, k) :: rest) (hat : g.At v k arc) : ¬ s.Did g (.follow arc) := by
  rintro ⟨v', k', hat', h⟩
  obtain ⟨rfl, rfl⟩ := hg.at_unique hat hat'
  rcases h with hsettled | ⟨c, hc, hlt⟩
  · exact (hs.tip hpath).2.1 hsettled
  · have hnodup := hs.path_nodup
    rw [hpath] at hc hnodup
    rcases List.mem_cons.1 hc with heq | hc
    · cases heq
      exact lt_irrefl _ hlt
    · exact (List.nodup_cons.1 hnodup).1 (List.mem_map.2 ⟨_, hc, rfl⟩)

/-- **Some step can be made.** -/
theorem exists_step (hg : g.Fit) : ∃ turn, Step g s turn := by
  rcases hpath : s.path with _ | ⟨⟨v, k⟩, rest⟩
  · by_cases hstart : s.start < g.leaving.length
    · by_cases hsettled : Marked s.settled s.start
      · exact ⟨_, .skip hpath hstart hsettled⟩
      · exact ⟨_, .enter hpath hstart hsettled⟩
    · exact ⟨_, .finish hpath (Nat.not_lt.1 hstart)⟩
  · obtain ⟨arcs, harcs⟩ : ∃ arcs, g.leaving[v]? = some arcs :=
      ⟨_, List.getElem?_eq_getElem (hs.tip hpath).2.2⟩
    by_cases hk : k < arcs.length
    · have hat : g.At v k arcs[k] := ⟨arcs, harcs, List.getElem?_eq_getElem hk⟩
      obtain ⟨w, hhead⟩ : ∃ w, g.heads[arcs[k]]? = some w :=
        ⟨_, List.getElem?_eq_getElem (hg.lt_of_at hat)⟩
      by_cases hvisiting : Marked s.visiting w
      · exact ⟨_, .close hpath hat hhead hvisiting⟩
      · by_cases hsettled : Marked s.settled w
        · exact ⟨_, .pass hpath hat hhead hvisiting hsettled⟩
        · exact ⟨_, .push hpath hat hhead hvisiting hsettled⟩
    · exact ⟨_, .pop hpath harcs (Nat.not_lt.1 hk)⟩

/-- After an arc is followed the state is sound. -/
theorem follow (hg : g.Fit) {v k arc : ℕ} {rest : List (ℕ × ℕ)} (hpath : s.path = (v, k) :: rest)
    (hat : g.At v k arc) :
    Sound g { s with path := (v, k + 1) :: rest, done := .follow arc :: s.done } := by
  have hafter : After s { s with path := (v, k + 1) :: rest, done := .follow arc :: s.done } := by
    refine ⟨le_rfl, id, .inl, fun {u c} huc => .inr ?_⟩
    rw [hpath] at huc
    rcases List.mem_cons.1 huc with heq | huc
    · cases heq
      exact ⟨k + 1, List.mem_cons_self, Nat.le_succ k⟩
    · exact ⟨c, List.mem_cons_of_mem _ huc, le_rfl⟩
  have hnew := hs.not_did_follow hg hpath hat
  obtain ⟨hnodup, hdid⟩ := hs.log hafter rfl hnew
    ⟨v, k, hat, .inr ⟨k + 1, List.mem_cons_self, Nat.lt_succ_self k⟩⟩
  have hfst : ((v, k + 1) :: rest).map (·.1) = s.path.map (·.1) := by rw [hpath]; rfl
  exact ⟨⟨hs.toSized.settled, hs.toSized.visiting⟩, hs.start_le, fun u => hfst ▸ hs.visiting_iff u,
    hs.apart, hfst ▸ hs.path_nodup, hnodup, hdid⟩

/-- After a start is looked at the state is sound. -/
theorem look (hstart : s.start < g.leaving.length) :
    Sound g { s with start := s.start + 1, done := .look s.start :: s.done } := by
  have hafter : After s { s with start := s.start + 1, done := .look s.start :: s.done } :=
    ⟨Nat.le_succ _, id, .inl, fun h => .inr ⟨_, h, le_rfl⟩⟩
  obtain ⟨hnodup, hdid⟩ := hs.log hafter rfl (lt_irrefl s.start) (Nat.lt_succ_self s.start)
  exact ⟨⟨hs.toSized.settled, hs.toSized.visiting⟩, hstart, hs.visiting_iff, hs.apart,
    hs.path_nodup, hnodup, hdid⟩

/-- After a vertex without mark comes onto the path the state is sound. -/
theorem push {w : ℕ} (hw : w < g.leaving.length) (hvisiting : ¬ Marked s.visiting w)
    (hsettled : ¬ Marked s.settled w) :
    Sound g { s with
      visiting := s.visiting.set w true, path := (w, 0) :: s.path, done := .push w :: s.done } := by
  have hmark : ∀ {u : ℕ}, Marked (s.visiting.set w true) u ↔ u = w ∨ Marked s.visiting u :=
    marked_set_true (hs.toSized.visiting ▸ hw)
  have hafter : After s { s with
      visiting := s.visiting.set w true, path := (w, 0) :: s.path, done := .push w :: s.done } :=
    ⟨le_rfl, id, fun h => .inl (hmark.2 (.inr h)), fun h =>
      .inr ⟨_, List.mem_cons_of_mem _ h, le_rfl⟩⟩
  obtain ⟨hnodup, hdid⟩ := hs.log hafter rfl (fun h => h.elim hvisiting hsettled)
    (.inl (hmark.2 (.inl rfl)))
  refine ⟨⟨hs.toSized.settled, ?_⟩, hs.start_le, fun u => ?_, fun u hu => ?_, ?_, hnodup, hdid⟩
  · rw [List.length_set, hs.toSized.visiting]
  · rw [hmark, hs.visiting_iff, List.map_cons, List.mem_cons]
  · rcases hmark.1 hu with rfl | hu
    · exact hsettled
    · exact hs.apart u hu
  · exact List.nodup_cons.2 ⟨fun h => hvisiting ((hs.visiting_iff w).2 h), hs.path_nodup⟩

/-- After the tip of the path is settled the state is sound. -/
theorem pop {v k : ℕ} {rest : List (ℕ × ℕ)} (hpath : s.path = (v, k) :: rest) :
    Sound g { s with
      visiting := s.visiting.set v false, settled := s.settled.set v true, path := rest,
      done := .pop v :: s.done } := by
  obtain ⟨-, hsettled, hv⟩ := hs.tip hpath
  have hmark : ∀ {u : ℕ}, Marked (s.settled.set v true) u ↔ u = v ∨ Marked s.settled u :=
    marked_set_true (hs.toSized.settled ▸ hv)
  have hnodup := hs.path_nodup
  have hiff := hs.visiting_iff
  rw [hpath, List.map_cons] at hnodup hiff
  obtain ⟨hvrest, hrest⟩ := List.nodup_cons.1 hnodup
  have hafter : After s { s with
      visiting := s.visiting.set v false, settled := s.settled.set v true, path := rest,
      done := .pop v :: s.done } := by
    refine ⟨le_rfl, fun h => hmark.2 (.inr h), fun {u} hu => ?_, fun {u c} huc => ?_⟩
    · by_cases huv : u = v
      · exact .inr (hmark.2 (.inl huv))
      · exact .inl (marked_set_false.2 ⟨huv, hu⟩)
    · rw [hpath] at huc
      rcases List.mem_cons.1 huc with heq | huc
      · cases heq
        exact .inl (hmark.2 (.inl rfl))
      · exact .inr ⟨c, huc, le_rfl⟩
  obtain ⟨hdone, hdid⟩ := hs.log hafter rfl hsettled (hmark.2 (.inl rfl))
  refine ⟨⟨?_, ?_⟩, hs.start_le, fun u => ?_, fun u hu => ?_, hrest, hdone, hdid⟩
  · rw [List.length_set, hs.toSized.settled]
  · rw [List.length_set, hs.toSized.visiting]
  · rw [marked_set_false, hiff, List.mem_cons]
    constructor
    · rintro ⟨hne, rfl | hu⟩
      · exact absurd rfl hne
      · exact hu
    · exact fun hu => ⟨fun h => hvrest (h ▸ hu), .inr hu⟩
  · obtain ⟨hne, hu⟩ := marked_set_false.1 hu
    exact fun h => (hmark.1 h).elim hne (hs.apart u hu)

end Sound

/-- **A step keeps the state sound.** -/
theorem Step.sound {s : Search} (hg : g.Fit) (hs : s.Sound g) {turn : Turn Search (Option (List ℕ))}
    (h : Step g s turn) : turn.state.Sound g := by
  cases h with
  | skip _ hstart _ => exact hs.look hstart
  | enter hpath hstart hsettled =>
    have hvisiting : ¬ Marked s.visiting s.start := by simp [hs.visiting_iff, hpath]
    simpa [hpath, Turn.state] using (hs.look hstart).push hstart hvisiting hsettled
  | finish _ _ => exact hs
  | close hpath hat _ _ => exact hs.follow hg hpath hat
  | pass hpath hat _ _ _ => exact hs.follow hg hpath hat
  | push hpath hat hhead hvisiting hsettled =>
    exact (hs.follow hg hpath hat).push (hg.head_lt _ (List.mem_of_getElem? hhead)) hvisiting
      hsettled
  | pop hpath _ _ => exact hs.pop hpath

/-- Another round has something done. -/
theorem Step.length_done_lt {s t : Search} (h : Step g s (.again t)) :
    s.done.length < t.done.length := by
  cases h <;> simp only [List.length_cons] <;> omega

/-! ## The bound -/

/-- All that can be done in the search of a graph with `n` vertices and `m` arcs. -/
def acts (n m : ℕ) : List Act :=
  (List.range n).flatMap (fun v => [.look v, .push v, .pop v]) ++ (List.range m).map .follow

theorem length_acts (n m : ℕ) : (acts n m).length = 3 * n + m := by
  simp [acts, List.length_flatMap, Nat.mul_comm]

/-- What has been done can be done. -/
theorem Sound.done_subset (hg : g.Fit) {s : Search} (hs : s.Sound g) :
    s.done ⊆ acts g.leaving.length g.heads.length := by
  intro act hact
  have hdid := hs.did act hact
  have hvertex : ∀ {v : ℕ}, v < g.leaving.length → ∀ act ∈ [Act.look v, .push v, .pop v],
      act ∈ acts g.leaving.length g.heads.length := fun hv act hact =>
    List.mem_append_left _ (List.mem_flatMap.2 ⟨_, List.mem_range.2 hv, hact⟩)
  cases act with
  | look v => exact hvertex (Nat.lt_of_lt_of_le hdid hs.start_le) _ (by simp)
  | push v =>
    refine hvertex (v := v) ?_ _ (by simp)
    rcases hdid with hmarked | hmarked
    · exact hs.toSized.visiting ▸ hmarked.lt
    · exact hs.toSized.settled ▸ hmarked.lt
  | follow arc =>
    obtain ⟨v, k, hat, -⟩ := hdid
    exact List.mem_append_right _ (List.mem_map.2 ⟨arc, List.mem_range.2 (hg.lt_of_at hat), rfl⟩)
  | pop v => exact hvertex (v := v) (hs.toSized.settled ▸ Marked.lt hdid) _ (by simp)

/-- **No search does more** than look at, push and pop each vertex and follow each arc. -/
theorem Sound.length_done_le (hg : g.Fit) {s : Search} (hs : s.Sound g) :
    s.done.length ≤ 3 * g.leaving.length + g.heads.length := by
  rw [← length_acts]
  exact (hs.done_nodup.subperm (hs.done_subset hg)).length_le

/-- **The search ends**, and asks for no place that is not there. -/
theorem exists_loop_eq (hg : g.Fit) {rounds : ℕ}
    (hrounds : 3 * g.leaving.length + g.heads.length < rounds) :
    ∃ last found, loop (round g) rounds (initial g) = .ok (last, found) ∧ last.Sound g := by
  refine Metalanguage.exists_loop_eq (Sound g) (fun s => s.done.length)
    (fun s hs => hs.length_done_le hg) (fun s hs => ?_) (sound_initial g) hrounds
  obtain ⟨turn, hstep⟩ := hs.exists_step hg
  have hround := hstep.round_eq hg hs.toSized
  have hsound := hstep.sound hg hs
  cases turn with
  | again t => exact .inl ⟨t, hround, hsound, hstep.length_done_lt⟩
  | stop t found => exact .inr ⟨t, found, hround, hsound⟩

end Search

end Metalanguage.Digraph
