import Mathlib.Data.List.Forall2
import Mathlib.Logic.Relation
import Metalanguage.Loop
import Metalanguage.Proofs.Sequencing

/-!
# Proofs/Loop — tables that have the places asked for, and loops that end

A table answers where it has the place (`Table.entry_eq`, `Table.put_eq`, `Table.group_eq`). A loop
goes through states (`Leads`). It ends if an invariant keeps its rounds from failing and some size
of the state grows in each round, but not beyond a bound (`exists_loop_eq`).
-/

namespace Metalanguage

/-! ## Tables -/

namespace Table

variable {α β : Type}

theorem entry_eq {l : List α} {i : ℕ} {a : α} (h : l[i]? = some a) : entry l i = .ok a := by
  rw [entry, h]

theorem put_eq {l : List α} {i : ℕ} (h : i < l.length) (a : α) : put l i a = .ok (l.set i a) :=
  if_pos h

/-- **Entries are looked up one by one** where all places are there. -/
theorem mapM_entry {l : List α} {is : List ℕ} {as : List α}
    (h : List.Forall₂ (fun i a => l[i]? = some a) is as) : is.mapM (entry l) = .ok as :=
  mapM_eq_ok_iff.2 (h.imp fun _ _ => entry_eq)

/-- A step for each entry of a list that cannot fail. -/
theorem mapM_eq_map {ε : Type} {f : α → Except ε β} {g : α → β} {l : List α}
    (h : ∀ a ∈ l, f a = .ok (g a)) : l.mapM f = .ok (l.map g) := by
  refine mapM_eq_ok_iff.2 (List.forall₂_map_right_iff.2 ?_)
  exact List.forall₂_same.2 h

/-- Values go behind those that are there. -/
theorem exists_extended : ∀ (values : List (ℕ × α)) (table : List (List α)),
    (∀ v ∈ values, v.1 < table.length) →
      ∃ t, values.foldlM (fun table (i, a) => extend table i a) table = .ok t ∧
        t.length = table.length ∧
        ∀ i, t[i]? = table[i]?.map (· ++ (values.filter (·.1 == i)).map (·.2))
  | [], table, _ => ⟨table, rfl, rfl, fun i => by simp⟩
  | (j, a) :: values, table, h => by
    obtain ⟨hj, hvalues⟩ := List.forall_mem_cons.1 h
    have hextend : extend table j a = .ok (table.set j (table[j] ++ [a])) := by
      rw [extend, entry_eq (List.getElem?_eq_getElem hj)]
      exact put_eq hj _
    obtain ⟨t, ht, hlength, hentries⟩ :=
      exists_extended values (table.set j (table[j] ++ [a])) (by simpa using hvalues)
    refine ⟨t, ?_, by simpa using hlength, fun i => ?_⟩
    · rw [List.foldlM_cons]
      change (extend table j a >>= _) = _
      rw [hextend]
      exact ht
    · rw [hentries]
      by_cases hij : j = i
      · subst hij
        simp [List.getElem?_set_self hj, List.getElem?_eq_getElem hj]
      · simp [List.getElem?_set_ne hij, hij]

/-- **A table of lists** has at each place the values that come with it, in their order. -/
theorem group_eq {n : ℕ} {values : List (ℕ × α)} (h : ∀ v ∈ values, v.1 < n) :
    group n values = .ok ((List.range n).map fun i => (values.filter (·.1 == i)).map (·.2)) := by
  obtain ⟨t, ht, hlength, hentries⟩ :=
    exists_extended values (List.replicate n []) (by simpa using h)
  rw [group, ht]
  refine congrArg Except.ok (List.ext_getElem? fun i => ?_)
  rw [hentries, List.getElem?_replicate, List.getElem?_map]
  split
  case isTrue hi => rw [List.getElem?_range hi]; rfl
  case isFalse hi => rw [List.getElem?_eq_none (by simpa using hi)]; rfl

end Table

/-! ## Loops -/

section Loop

variable {σ α : Type} {round : σ → Except Halt (Turn σ α)} {s t u : σ} {a : α}

/-- The state that a round leads to. -/
def Turn.state : Turn σ α → σ
  | .again s => s
  | .stop s _ => s

/-- Rounds of a loop lead from one state to another. -/
abbrev Leads (round : σ → Except Halt (Turn σ α)) : σ → σ → Prop :=
  Relation.ReflTransGen fun s t => round s = .ok (.again t)

theorem loop_again (h : round s = .ok (.again t)) (rounds : ℕ) :
    loop round (rounds + 1) s = loop round rounds t := by
  rw [loop, h]
  rfl

theorem loop_stop (h : round s = .ok (.stop t a)) (rounds : ℕ) :
    loop round (rounds + 1) s = .ok (t, a) := by
  rw [loop, h]
  rfl

/-- A finished loop is left alone by more rounds. -/
theorem loop_mono {r : σ × α} : ∀ {rounds more : ℕ} {s : σ}, rounds ≤ more →
    loop round rounds s = .ok r → loop round more s = .ok r
  | 0, _, _, _, h => nomatch h
  | rounds + 1, 0, _, hle, _ => absurd hle (Nat.not_succ_le_zero _)
  | rounds + 1, more + 1, s, hle, h => by
    cases hround : round s with
    | error e => rw [loop, hround] at h; cases h
    | ok turn =>
      cases turn with
      | again t =>
        rw [loop_again hround] at h ⊢
        exact loop_mono (Nat.le_of_succ_le_succ hle) h
      | stop t a =>
        rw [loop_stop hround] at h ⊢
        exact h

/-- **Where a loop stops is its answer**, whatever the number of rounds it ends in. -/
theorem eq_of_leads_of_loop (h : Leads round s t) (hstop : round t = .ok (.stop u a)) {rounds : ℕ}
    {r : σ × α} (hloop : loop round rounds s = .ok r) : r = (u, a) := by
  induction h using Relation.ReflTransGen.head_induction_on generalizing rounds with
  | refl =>
    cases rounds with
    | zero => cases hloop
    | succ rounds =>
      rw [loop_stop hstop] at hloop
      exact (Except.ok.inj hloop).symm
  | head hfirst _ ih =>
    cases rounds with
    | zero => cases hloop
    | succ rounds => exact ih (by rwa [loop_again hfirst] at hloop)

/-- **A loop ends** if each round, from a state of the invariant, stops or leads to a bigger such
state, and these are no bigger than the bound. -/
theorem exists_loop_eq (Inv : σ → Prop) (size : σ → ℕ) {bound : ℕ} {Post : σ → α → Prop}
    (hsize : ∀ s, Inv s → size s ≤ bound)
    (hround : ∀ s, Inv s → (∃ t, round s = .ok (.again t) ∧ Inv t ∧ size s < size t) ∨
      ∃ t a, round s = .ok (.stop t a) ∧ Post t a) :
    ∀ {rounds : ℕ} {s : σ}, Inv s → bound < rounds + size s →
      ∃ t a, loop round rounds s = .ok (t, a) ∧ Post t a
  | 0, s, hs, hbound => absurd (hsize s hs) (by omega)
  | rounds + 1, s, hs, hbound => by
    rcases hround s hs with ⟨t, ht, hinv, hlt⟩ | ⟨t, a, ht, hpost⟩
    · rw [loop_again ht]
      exact exists_loop_eq Inv size hsize hround hinv (by omega)
    · exact ⟨t, a, loop_stop ht rounds, hpost⟩

end Loop

end Metalanguage
