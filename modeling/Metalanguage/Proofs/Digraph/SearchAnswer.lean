import Metalanguage.Proofs.Digraph.Search

/-!
# Proofs/Digraph/SearchAnswer — the loop finds the walk that the recursive search finds

A call of the recursive search is a run of the loop: from the state with a vertex at the tip of the
path to the state in which it has gone from the path, or to the round that finds a closed walk
(`Search.Answers`). The settled vertices are those that the recursion carries as safe, and its path is
the one of the loop without the cursors. So both find the same walk (`Search.exists_loop_eq_cycle?`).
-/

namespace Metalanguage.Digraph.Search

variable {g : Tables}

/-! ## The walk that is closed -/

/-- On a path that meets no vertex twice the loop closes the walk that the recursion closes. -/
theorem closing_eq {path : List (ℕ × ℕ)} {w : ℕ} (hnodup : (path.map (·.1)).Nodup)
    (hw : w ∈ path.map (·.1)) : closing path w = closedWalk (path.map (·.1)) w := by
  rw [closing]
  generalize path.map (·.1) = vertices at hnodup hw ⊢
  obtain ⟨pre, post, rfl⟩ := List.append_of_mem hw
  obtain ⟨-, htail, hdisjoint⟩ := List.nodup_append.1 hnodup
  have hpre : ∀ a ∈ pre, a ≠ w := fun a ha => hdisjoint a ha w List.mem_cons_self
  have hpost : ∀ a ∈ post.reverse, a ≠ w := fun a ha h =>
    (List.nodup_cons.1 htail).1 (h ▸ List.mem_reverse.1 ha)
  have hfind : (post.reverse ++ w :: pre.reverse).findIdx? (· == w) = some post.length := by
    rw [List.findIdx?_append, List.findIdx?_eq_none_iff.2 (by simpa using hpost)]
    simp [List.findIdx?_cons]
  have htake : (pre ++ w :: post).takeWhile (· != w) = pre := by
    rw [List.takeWhile_append_of_pos (by simpa using hpre)]
    simp
  have hreverse : (pre ++ w :: post).reverse = post.reverse ++ w :: pre.reverse := by simp
  rw [closedWalk, htake, hreverse, hfind, Option.getD_some, List.drop_left' (by simp)]

/-! ## What a call of the recursion stands for -/

/-- **Where the loop stands** beside the recursion, which knows some vertices as safe. -/
structure Stands (g : Tables) (start : ℕ) (path : List (ℕ × ℕ)) (safe : List ℕ) (s : Search) :
    Prop where
  sound : s.Sound g
  start_eq : s.start = start
  path_eq : s.path = path
  settled_iff : ∀ v, Marked s.settled v ↔ v ∈ safe

/-- **The loop goes on as the recursion answers**: it stops with the walk, or comes to where the path
is this one and the safe vertices are settled. -/
def Answers (g : Tables) (s : Search) (start : ℕ) (path : List (ℕ × ℕ)) :
    Except (List ℕ) (List ℕ) → Prop
  | .error walk => ∃ t last, Leads (round g) s t ∧ round g t = .ok (.stop last (some walk))
  | .ok safe => ∃ t, Leads (round g) s t ∧ Stands g start path safe t

variable {s t : Search} {start v w k : ℕ} {path rest : List (ℕ × ℕ)} {safe : List ℕ}
  {r : Except (List ℕ) (List ℕ)}

theorem Stands.answers (h : Stands g start path safe s) : Answers g s start path (.ok safe) :=
  ⟨s, .refl, h⟩

/-- Rounds before do not change what is answered. -/
theorem Answers.of_leads (hst : Leads (round g) s t) (h : Answers g t start path r) :
    Answers g s start path r := by
  cases r with
  | error walk =>
    obtain ⟨u, last, htu, hstop⟩ := h
    exact ⟨u, last, hst.trans htu, hstop⟩
  | ok safe =>
    obtain ⟨u, htu, hu⟩ := h
    exact ⟨u, hst.trans htu, hu⟩

/-- **One call after the other** is one run after the other. -/
theorem Answers.bind {start' : ℕ} {path' : List (ℕ × ℕ)}
    {f : List ℕ → Except (List ℕ) (List ℕ)} (h : Answers g s start path r)
    (hf : ∀ {t safe}, Stands g start path safe t → Answers g t start' path' (f safe)) :
    Answers g s start' path' (r >>= f) := by
  cases r with
  | error walk => exact h
  | ok safe =>
    obtain ⟨t, hst, ht⟩ := h
    exact (hf ht).of_leads hst

namespace Stands

section Tip

variable (h : Stands g start ((v, k) :: rest) safe s)

include h

/-- A vertex is visited if it is on the path of the recursion. -/
theorem visiting_iff : Marked s.visiting w ↔ w ∈ v :: rest.map (·.1) := by
  rw [h.sound.visiting_iff, h.path_eq]
  rfl

/-- The vertices on the path are distinct vertices of the graph. -/
theorem length_path_le : rest.length + 1 ≤ g.leaving.length := by
  have hlt : ∀ u ∈ s.path.map (·.1), u < g.leaving.length := fun u hu =>
    h.sound.toSized.visiting ▸ ((h.sound.visiting_iff u).2 hu).lt
  simpa [h.path_eq] using length_le_of_nodup h.sound.path_nodup hlt

variable (hg : g.Fit)

include hg

/-- A step of the loop is a round. -/
theorem leads_of_step (hstep : Step g s (.again t)) : Leads (round g) s t ∧ t.Sound g :=
  ⟨.single (hstep.round_eq hg h.sound.toSized), hstep.sound hg h.sound⟩

/-- When all arcs have been followed the vertex is safe. -/
theorem answers_end {arcs : List ℕ} (harcs : g.leaving[v]? = some arcs) (hend : arcs.length ≤ k) :
    Answers g s start rest (.ok (v :: safe)) := by
  have hv := h.sound.toSized.settled ▸ (h.sound.tip h.path_eq).2.2
  obtain ⟨hleads, hsound⟩ := h.leads_of_step hg (.pop h.path_eq harcs hend)
  refine ⟨_, hleads, hsound, h.start_eq, rfl, fun u => ?_⟩
  rw [marked_set_true hv, h.settled_iff, List.mem_cons]

/-- **An arc is followed as the recursion does it**, if that is so of the calls that are deeper. -/
theorem answers_arc {arc : ℕ} (hat : g.At v k arc) (hhead : g.heads[arc]? = some w)
    {f : List ℕ → ℕ → Except (List ℕ) (List ℕ)}
    (hf : ∀ {t}, Stands g start ((w, 0) :: (v, k + 1) :: rest) safe t →
      Answers g t start ((v, k + 1) :: rest) (f safe w)) :
    Answers g s start ((v, k + 1) :: rest)
      (if (v :: rest.map (·.1)).contains w then .error (closedWalk (v :: rest.map (·.1)) w)
        else if safe.contains w then .ok safe else f safe w) := by
  simp only [List.contains_iff_mem, ← h.visiting_iff, ← h.settled_iff]
  split
  case isTrue hvisiting =>
    have hnodup := h.sound.path_nodup
    rw [h.path_eq] at hnodup
    have hclosing : closing ((v, k + 1) :: rest) w = closedWalk (v :: rest.map (·.1)) w :=
      closing_eq hnodup (h.visiting_iff.1 hvisiting)
    have hstep := Step.close h.path_eq hat hhead hvisiting
    rw [hclosing] at hstep
    exact ⟨s, _, .refl, hstep.round_eq hg h.sound.toSized⟩
  case isFalse hvisiting =>
    split
    case isTrue hsettled =>
      obtain ⟨hleads, hsound⟩ :=
        h.leads_of_step hg (.pass h.path_eq hat hhead hvisiting hsettled)
      exact ⟨_, hleads, hsound, h.start_eq, rfl, h.settled_iff⟩
    case isFalse hsettled =>
      obtain ⟨hleads, hsound⟩ :=
        h.leads_of_step hg (.push h.path_eq hat hhead hvisiting hsettled)
      exact (hf ⟨hsound, h.start_eq, rfl, h.settled_iff⟩).of_leads hleads

end Tip

/-- **The arcs out of a vertex** are followed one after the other, and then it is safe. -/
theorem answers_arcs (hg : g.Fit) {arcs : List ℕ} (harcs : g.leaving[v]? = some arcs)
    {f : List ℕ → ℕ → Except (List ℕ) (List ℕ)}
    (hf : ∀ {k arc w safe s}, Stands g start ((v, k) :: rest) safe s → g.At v k arc →
      g.heads[arc]? = some w → Answers g s start ((v, k + 1) :: rest) (f safe w)) :
    ∀ {ws : List ℕ} {k : ℕ} {safe : List ℕ} {s : Search},
      List.Forall₂ (fun arc w => g.heads[arc]? = some w) (arcs.drop k) ws →
      Stands g start ((v, k) :: rest) safe s →
      Answers g s start rest (ws.foldlM f safe >>= fun safe => .ok (v :: safe))
  | [], k, safe, s, hws, h => by
    have hend := List.drop_eq_nil_iff.1 (List.forall₂_nil_right_iff.1 hws)
    exact h.answers_end hg harcs hend
  | w :: ws, k, safe, s, hws, h => by
    obtain ⟨arc, left, hhead, hleft, hdrop⟩ := List.forall₂_cons_right_iff.1 hws
    have hat : g.At v k arc := ⟨arcs, harcs, by
      rw [← List.head?_drop, hdrop, List.head?_cons]⟩
    have hdrop' : arcs.drop (k + 1) = left := by
      rw [← List.tail_drop, hdrop, List.tail_cons]
    rw [List.foldlM_cons, bind_assoc]
    exact (hf h hat hhead).bind fun ht => answers_arcs hg harcs hf (hdrop' ▸ hleft) ht

/-- **A call of the recursive search is a run of the loop** that starts with the vertex at the tip of
the path, and ends without it. -/
theorem answers_search (hg : g.Fit) : ∀ (fuel : ℕ) {v : ℕ} {rest : List (ℕ × ℕ)} {safe : List ℕ}
    {s : Search}, Stands g start ((v, 0) :: rest) safe s → g.leaving.length ≤ fuel + rest.length →
      Answers g s start rest (search g.next fuel (rest.map (·.1)) safe v)
  | 0, v, rest, safe, s, h, hfuel => by
    have := h.length_path_le
    omega
  | fuel + 1, v, rest, safe, s, h, hfuel => by
    obtain ⟨arcs, harcs⟩ : ∃ arcs, g.leaving[v]? = some arcs :=
      ⟨_, List.getElem?_eq_getElem (h.sound.tip h.path_eq).2.2⟩
    refine answers_arcs hg harcs (fun h' hat hhead => ?_) (k := 0) (hg.forall₂_next harcs) h
    exact h'.answers_arc hg hat hhead fun ht =>
      answers_search hg fuel ht (by simp only [List.length_cons]; omega)

end Stands

/-! ## All starts -/

/-- A start is looked at as the recursion does it. -/
theorem Stands.answers_start (hg : g.Fit) (h : Stands g v [] safe s) (hv : v < g.leaving.length) :
    Answers g s (v + 1) []
      (if safe.contains v then .ok safe else search g.next g.leaving.length [] safe v) := by
  obtain rfl := h.start_eq
  simp only [List.contains_iff_mem, ← h.settled_iff]
  split
  case isTrue hsettled =>
    have hstep := Step.skip h.path_eq hv hsettled
    exact ⟨_, .single (hstep.round_eq hg h.sound.toSized), hstep.sound hg h.sound, rfl, h.path_eq,
      h.settled_iff⟩
  case isFalse hsettled =>
    have hstep := Step.enter h.path_eq hv hsettled
    refine Answers.of_leads (.single (hstep.round_eq hg h.sound.toSized)) ?_
    have hstands : Stands g (s.start + 1) [(s.start, 0)] safe _ :=
      ⟨hstep.sound hg h.sound, rfl, rfl, h.settled_iff⟩
    exact hstands.answers_search hg g.leaving.length (Nat.le_add_right _ _)

/-- The starts that are left are looked at one after the other. -/
theorem Stands.answers_starts (hg : g.Fit) : ∀ {left v : ℕ} {safe : List ℕ} {s : Search},
    v + left = g.leaving.length → Stands g v [] safe s →
      Answers g s g.leaving.length [] ((List.range' v left).foldlM (fun safe v =>
        if safe.contains v then .ok safe else search g.next g.leaving.length [] safe v) safe)
  | 0, v, safe, s, hv, h => by
    obtain rfl : v = g.leaving.length := hv
    exact h.answers
  | left + 1, v, safe, s, hv, h => by
    rw [List.range'_succ, List.foldlM_cons]
    exact (h.answers_start hg (by omega)).bind fun ht => ht.answers_starts hg (by omega)

theorem answers_searchAll (hg : g.Fit) :
    Answers g (initial g) g.leaving.length [] (searchAll g.next g.leaving.length) := by
  rw [searchAll, List.range_eq_range']
  refine Stands.answers_starts hg (Nat.zero_add _) ⟨sound_initial g, rfl, rfl, fun v => ?_⟩
  simp [initial, Marked, List.getElem?_replicate]

/-- **The loop stops with the answer of the recursive search.** -/
theorem exists_stop (hg : g.Fit) : ∃ t last, Leads (round g) (initial g) t ∧
    round g t = .ok (.stop last (cycle? g.next g.leaving.length)) := by
  have h := answers_searchAll hg
  rw [cycle?]
  cases hr : searchAll g.next g.leaving.length with
  | error walk =>
    rw [hr] at h
    exact h
  | ok safe =>
    rw [hr] at h
    obtain ⟨t, hleads, ht⟩ := h
    have hstep := Step.finish ht.path_eq ht.start_eq.ge
    exact ⟨t, t, hleads, hstep.round_eq hg ht.sound.toSized⟩

/-- **Whatever the number of rounds it ends in, the loop answers as the recursive search.** -/
theorem eq_cycle?_of_loop (hg : g.Fit) {rounds : ℕ} {last : Search} {found : Option (List ℕ)}
    (h : loop (round g) rounds (initial g) = .ok (last, found)) :
    found = cycle? g.next g.leaving.length := by
  obtain ⟨t, u, hleads, hstop⟩ := exists_stop hg
  cases eq_of_leads_of_loop hleads hstop h
  rfl

/-- **The search over tables ends with the answer of the recursive search**, and does nothing twice.
-/
theorem exists_loop_eq_cycle? (hg : g.Fit) {rounds : ℕ}
    (hrounds : 3 * g.leaving.length + g.heads.length < rounds) :
    ∃ last, loop (round g) rounds (initial g) = .ok (last, cycle? g.next g.leaving.length) ∧
      last.Sound g := by
  obtain ⟨last, found, hloop, hlast⟩ := exists_loop_eq hg hrounds
  obtain rfl := eq_cycle?_of_loop hg hloop
  exact ⟨last, hloop, hlast⟩

end Metalanguage.Digraph.Search
