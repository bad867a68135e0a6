import Mathlib.Data.List.Chain
import Mathlib.Data.List.Nodup
import Mathlib.Data.List.Perm.Subperm
import Mathlib.Logic.Relation
import Metalanguage.Digraph

/-!
# Proofs/Digraph/Cycles — the depth-first search finds a cycle exactly where there is one

A walk that the search reports is a simple cycle (`isCycle_of_cycle?`). Where it reports none, every
vertex is *grounded*: no walk from it goes on for ever. The search keeps both promises at every step
(`Settles`), and its fuel never runs out, because the vertices of a path are distinct. So
`cycle?_eq_none_iff`: no cycle is reported exactly when no vertex reaches itself.
-/

namespace Metalanguage.Digraph

variable {next : ℕ → List ℕ} {n : ℕ}

/-- There is an arc from `a` to `b`. -/
abbrev HasArc (next : ℕ → List ℕ) (a b : ℕ) : Prop := b ∈ next a

/-- **A simple cycle**: from a vertex along arcs back to it, without meeting another one twice. -/
def IsCycle (next : ℕ → List ℕ) (walk : List ℕ) : Prop :=
  ∃ w l, walk = w :: l ++ [w] ∧ (w :: l).Nodup ∧ walk.IsChain (HasArc next)

/-- No walk from `v` goes on for ever. -/
abbrev Grounded (next : ℕ → List ℕ) (v : ℕ) : Prop := Acc (fun b a => HasArc next a b) v

/-- The arcs run between vertices below `n`. -/
def Within (next : ℕ → List ℕ) (n : ℕ) : Prop := ∀ a b, HasArc next a b → a < n ∧ b < n

/-! ## Walks and reachability -/

theorem transGen_of_isChain {R : ℕ → ℕ → Prop} {b : ℕ} : ∀ {l : List ℕ} {a : ℕ},
    (a :: l ++ [b]).IsChain R → Relation.TransGen R a b
  | [], a, h => .single (by simpa using h)
  | c :: l, a, h => by
    simp only [List.cons_append, List.isChain_cons_cons] at h
    exact .head h.1 (transGen_of_isChain h.2)

theorem IsCycle.transGen {walk : List ℕ} (h : IsCycle next walk) :
    ∃ v, Relation.TransGen (HasArc next) v v := by
  obtain ⟨w, l, rfl, -, hchain⟩ := h
  exact ⟨w, transGen_of_isChain hchain⟩

/-- Every vertex of a cycle has an arc out of it. -/
theorem IsCycle.exists_hasArc {walk : List ℕ} (h : IsCycle next walk) {i : ℕ} (hi : i ∈ walk) :
    ∃ j, HasArc next i j := by
  obtain ⟨w, l, rfl, -, hchain⟩ := h
  have hmem : i ∈ w :: l := by simpa [or_comm, or_assoc] using hi
  obtain ⟨k, hk, rfl⟩ := List.getElem_of_mem hmem
  have hnext := List.isChain_iff_getElem.1 hchain k (by simpa using hk)
  rw [List.getElem_append_left hk] at hnext
  exact ⟨_, hnext⟩

theorem IsCycle.lt {walk : List ℕ} (hin : Within next n) (h : IsCycle next walk) {i : ℕ}
    (hi : i ∈ walk) : i < n :=
  let ⟨j, hij⟩ := h.exists_hasArc hi
  (hin i j hij).1

/-- A grounded vertex does not reach itself. -/
theorem Grounded.not_transGen {v : ℕ} (h : Grounded next v) :
    ¬ Relation.TransGen (HasArc next) v v := by
  have hacc : Acc (Relation.TransGen fun b a => HasArc next a b) v := h.transGen
  have irrefl : ∀ {x : ℕ}, Acc (Relation.TransGen fun b a => HasArc next a b) x →
      ¬ Relation.TransGen (fun b a => HasArc next a b) x x := by
    intro x hx
    induction hx with
    | intro x _ ih => exact fun hxx => ih x hxx hxx
  exact fun hv => irrefl hacc (Relation.transGen_swap.1 hv)

/-! ## The walk that closes a path -/

/-- **An arc from the tip of a path back into it closes a simple cycle.** -/
theorem isCycle_closedWalk {v w : ℕ} {path : List ℕ}
    (hchain : (v :: path).IsChain fun b a => HasArc next a b) (hnodup : (v :: path).Nodup)
    (hw : w ∈ v :: path) (harc : HasArc next v w) : IsCycle next (closedWalk (v :: path) w) := by
  obtain ⟨pre, post, hsplit⟩ := List.append_of_mem hw
  rw [hsplit] at hchain hnodup
  have hpre : w ∉ pre := fun hmem =>
    (List.disjoint_of_nodup_append hnodup) hmem List.mem_cons_self
  have htake : (pre ++ w :: post).takeWhile (· != w) = pre := by
    rw [List.takeWhile_append_of_pos fun a ha => by
      simpa using fun h : a = w => hpre (h ▸ ha)]
    simp
  have hback : (pre ++ [w]).IsChain fun b a => HasArc next a b :=
    hchain.prefix ⟨post, by simp⟩
  have hwalk : (w :: pre.reverse).IsChain (HasArc next) := by
    have := List.isChain_reverse.2 hback
    simpa using this
  refine ⟨w, pre.reverse, by rw [closedWalk, hsplit, htake], ?_, ?_⟩
  · have hd := (List.nodup_append.1 hnodup).1
    exact List.nodup_cons.2 ⟨by simpa using hpre, List.nodup_reverse.2 hd⟩
  · rw [closedWalk, hsplit, htake]
    refine List.isChain_append.2 ⟨hwalk, by simp, fun x hx y hy => ?_⟩
    have hlast : (w :: pre.reverse).getLast? = some v := by
      rw [← List.head?_reverse, List.reverse_cons, List.reverse_reverse]
      have hhead := congrArg List.head? hsplit
      cases pre <;> simp_all
    obtain rfl : x = v := by simpa [hlast, eq_comm] using hx
    obtain rfl : y = w := by simpa [eq_comm] using hy
    exact harc

/-! ## What the search promises -/

/-- What a search that starts with the grounded vertices `safe` promises about `vs`: it reports a
cycle, or adds them all to the grounded vertices. -/
def Settles (next : ℕ → List ℕ) (safe vs : List ℕ) : Except (List ℕ) (List ℕ) → Prop
  | .error walk => IsCycle next walk
  | .ok safe' => safe ⊆ safe' ∧ vs ⊆ safe' ∧ ∀ x ∈ safe', Grounded next x

/-- If every step of a fold keeps the promise about its vertex, the fold keeps it about all. -/
theorem settles_foldlM {f : List ℕ → ℕ → Except (List ℕ) (List ℕ)} :
    ∀ {vs safe : List ℕ}, (∀ x ∈ safe, Grounded next x) →
      (∀ w ∈ vs, ∀ safe, (∀ x ∈ safe, Grounded next x) → Settles next safe [w] (f safe w)) →
      Settles next safe vs (vs.foldlM f safe)
  | [], safe, hsafe, _ => ⟨List.Subset.refl _, List.nil_subset _, hsafe⟩
  | v :: vs, safe, hsafe, hf => by
    have hv := hf v (by simp) safe hsafe
    rw [List.foldlM_cons]
    cases hfv : f safe v with
    | error walk => rw [hfv] at hv; exact hv
    | ok safe₁ =>
      rw [hfv] at hv
      obtain ⟨hsub, hmem, hsafe₁⟩ := hv
      have hrest := settles_foldlM hsafe₁ fun w hw => hf w (List.mem_cons_of_mem _ hw)
      change Settles next safe (v :: vs) (vs.foldlM f safe₁)
      cases hvs : vs.foldlM f safe₁ with
      | error walk => rw [hvs] at hrest; exact hrest
      | ok safe₂ =>
        rw [hvs] at hrest
        obtain ⟨hsub₂, hmem₂, hsafe₂⟩ := hrest
        exact ⟨fun x hx => hsub₂ (hsub hx),
          List.cons_subset.2 ⟨hsub₂ (hmem (by simp)), hmem₂⟩, hsafe₂⟩

/-- Distinct vertices below `n` are at most `n`. -/
theorem length_le_of_nodup {l : List ℕ} (hnodup : l.Nodup) (hlt : ∀ x ∈ l, x < n) :
    l.length ≤ n := by
  simpa using (hnodup.subperm fun x hx => List.mem_range.2 (hlt x hx)).length_le

/-- **The search keeps its promise** wherever the fuel covers the vertices off the path. -/
theorem settles_search (hin : Within next n) : ∀ (fuel : ℕ) {path safe : List ℕ} {v : ℕ},
    (v :: path).IsChain (fun b a => HasArc next a b) → (v :: path).Nodup →
      (∀ x ∈ v :: path, x < n) → n ≤ fuel + path.length → (∀ x ∈ safe, Grounded next x) →
      Settles next safe [v] (search next fuel path safe v)
  | 0, path, safe, v, _, hnodup, hlt, hfuel, _ => by
    have := length_le_of_nodup hnodup hlt
    simp only [List.length_cons] at this
    omega
  | fuel + 1, path, safe, v, hchain, hnodup, hlt, hfuel, hsafe => by
    have hfold : Settles next safe (next v) ((next v).foldlM (fun safe w =>
        if (v :: path).contains w then .error (closedWalk (v :: path) w)
        else if safe.contains w then .ok safe
        else search next fuel (v :: path) safe w) safe) := by
      refine settles_foldlM hsafe fun w hw safe hsafe => ?_
      simp only [List.contains_iff_mem]
      split
      case isTrue hmem => exact isCycle_closedWalk hchain hnodup hmem hw
      case isFalse hmem =>
        split
        case isTrue hdone => exact ⟨List.Subset.refl _, by simpa using hdone, hsafe⟩
        case isFalse _ =>
          refine settles_search hin fuel (List.isChain_cons_cons.2 ⟨hw, hchain⟩)
            (List.nodup_cons.2 ⟨hmem, hnodup⟩) ?_ (by simp only [List.length_cons]; omega) hsafe
          exact List.forall_mem_cons.2 ⟨(hin v w hw).2, hlt⟩
    rw [search]
    generalize (next v).foldlM (m := Except (List ℕ)) _ safe = res at hfold ⊢
    cases res with
    | error walk => exact hfold
    | ok safe₁ =>
      obtain ⟨hsub, hmem, hsafe₁⟩ := hfold
      refine ⟨fun x hx => List.mem_cons_of_mem _ (hsub hx), by simp, ?_⟩
      exact List.forall_mem_cons.2 ⟨.intro v fun w hw => hsafe₁ w (hmem hw), hsafe₁⟩

theorem settles_searchAll (hin : Within next n) :
    Settles next [] (List.range n) (searchAll next n) := by
  refine settles_foldlM (by simp) fun v hv safe hsafe => ?_
  simp only [List.contains_iff_mem]
  split
  case isTrue hdone => exact ⟨List.Subset.refl _, by simpa using hdone, hsafe⟩
  case isFalse _ =>
    exact settles_search hin n (by simp) (by simp) (by simpa using hv) (by simp) hsafe

/-! ## Soundness and completeness -/

/-- **A reported walk is a simple cycle.** -/
theorem isCycle_of_cycle? (hin : Within next n) {walk : List ℕ} (h : cycle? next n = some walk) :
    IsCycle next walk := by
  have hall := settles_searchAll hin
  rw [cycle?] at h
  cases hres : searchAll next n with
  | error w =>
    rw [hres] at hall h
    obtain rfl : w = walk := by simpa using h
    exact hall
  | ok safe => rw [hres] at h; cases h

/-- Where no cycle is reported, every vertex is grounded. -/
theorem grounded_of_cycle? (hin : Within next n) (h : cycle? next n = none) (v : ℕ) :
    Grounded next v := by
  have hall := settles_searchAll hin
  rw [cycle?] at h
  cases hres : searchAll next n with
  | error w => rw [hres] at h; cases h
  | ok safe =>
    rw [hres] at hall
    by_cases hv : v < n
    · exact hall.2.2 v (hall.2.1 (List.mem_range.2 hv))
    · exact .intro v fun w hw => absurd (hin v w hw).1 hv

/-- **No cycle is reported exactly when no vertex reaches itself.** -/
theorem cycle?_eq_none_iff (hin : Within next n) :
    cycle? next n = none ↔ ∀ v, ¬ Relation.TransGen (HasArc next) v v := by
  refine ⟨fun h v => (grounded_of_cycle? hin h v).not_transGen, fun h => ?_⟩
  cases hc : cycle? next n with
  | none => rfl
  | some walk =>
    obtain ⟨v, hv⟩ := (isCycle_of_cycle? hin hc).transGen
    exact absurd hv (h v)

end Metalanguage.Digraph
