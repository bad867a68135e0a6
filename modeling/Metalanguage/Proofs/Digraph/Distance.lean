import Metalanguage.Proofs.Digraph.Cycles
import Metalanguage.Proofs.Ordered.Laws

/-!
# Proofs/Digraph/Distance — the levels of a rooted tree hold every vertex once

A level holds the vertices at one distance from the start (`mem_iterate_nextLevel`). In a graph
without cycles, with one vertex that no arc enters and at most one arc into each other vertex, every
vertex has a walk from the root, and all its walks are of one length. So the levels below the root
list each vertex exactly once (`Rooted.levels_perm`).
-/

namespace Metalanguage.Digraph

variable {next : ℕ → List ℕ} {n : ℕ}

/-- A walk of so many arcs leads from one vertex to the other. -/
def Walks (next : ℕ → List ℕ) : ℕ → ℕ → ℕ → Prop
  | 0, a, b => a = b
  | k + 1, a, c => ∃ b, HasArc next a b ∧ Walks next k b c

/-- No vertex reaches itself. -/
abbrev Acyclic (next : ℕ → List ℕ) : Prop := ∀ v, ¬ Relation.TransGen (HasArc next) v v

/-- No vertex that can be reached from `a` reaches itself. -/
def AcyclicFrom (next : ℕ → List ℕ) (a : ℕ) : Prop :=
  ∀ v, Relation.ReflTransGen (HasArc next) a v → ¬ Relation.TransGen (HasArc next) v v

theorem Acyclic.acyclicFrom (h : Acyclic next) (a : ℕ) : AcyclicFrom next a := fun v _ => h v

/-! ## Walks -/

/-- A walk can be taken apart at its far end too. -/
theorem walks_succ_iff : ∀ {k a c : ℕ},
    Walks next (k + 1) a c ↔ ∃ b, Walks next k a b ∧ HasArc next b c
  | 0, a, c => by simp [Walks]
  | k + 1, a, c => by
    rw [Walks]
    constructor
    · rintro ⟨d, had, hdc⟩
      obtain ⟨b, hdb, hbc⟩ := walks_succ_iff.1 hdc
      exact ⟨b, ⟨d, had, hdb⟩, hbc⟩
    · rintro ⟨b, ⟨d, had, hdb⟩, hbc⟩
      exact ⟨d, had, walks_succ_iff.2 ⟨b, hdb, hbc⟩⟩

theorem Walks.transGen : ∀ {k a b : ℕ}, Walks next (k + 1) a b →
    Relation.TransGen (HasArc next) a b
  | 0, _, _, ⟨_, hac, rfl⟩ => .single hac
  | _ + 1, _, _, ⟨_, hac, hcb⟩ => .head hac (Walks.transGen hcb)

/-- One vertex reaches another along arcs exactly when some walk leads there. -/
theorem transGen_iff_walks {a b : ℕ} :
    Relation.TransGen (HasArc next) a b ↔ ∃ k, Walks next (k + 1) a b := by
  refine ⟨fun h => ?_, fun ⟨k, hk⟩ => hk.transGen⟩
  induction h with
  | single hab => exact ⟨0, walks_succ_iff.2 ⟨a, rfl, hab⟩⟩
  | tail _ hbc ih =>
    obtain ⟨k, hk⟩ := ih
    exact ⟨k + 1, walks_succ_iff.2 ⟨_, hk, hbc⟩⟩

theorem Walks.exists_chain : ∀ {k a b : ℕ}, Walks next k a b →
    ∃ l : List ℕ, l.length = k ∧ (a :: l).IsChain (HasArc next)
  | 0, _, _, _ => ⟨[], rfl, .singleton _⟩
  | _ + 1, _, _, ⟨c, hac, hcb⟩ =>
    let ⟨l, hl, hchain⟩ := hcb.exists_chain
    ⟨c :: l, by simp [hl], .cons_cons hac hchain⟩

/-- **Where no cycle can be reached a walk is shorter than the number of vertices**, since it meets
none twice. -/
theorem Walks.lt_of_acyclicFrom (hin : Within next n) {k a b : ℕ} (hac : AcyclicFrom next a)
    (h : Walks next k a b) (ha : a < n) : k < n := by
  obtain ⟨l, hl, hchain⟩ := h.exists_chain
  have hpair : (a :: l).Pairwise (Relation.TransGen (HasArc next)) :=
    List.isChain_iff_pairwise.1 (hchain.imp fun _ _ hab => .single hab)
  have hreached : ∀ x ∈ l, Relation.TransGen (HasArc next) a x := (List.pairwise_cons.1 hpair).1
  have hnodup : (a :: l).Nodup := by
    refine hpair.imp_of_mem fun {x y} hx _ hxy hne => ?_
    subst hne
    rcases List.mem_cons.1 hx with rfl | hx
    · exact hac x .refl hxy
    · exact hac x (hreached x hx).to_reflTransGen hxy
  have hlt : ∀ x ∈ a :: l, x < n := by
    intro x hx
    rcases List.mem_cons.1 hx with rfl | hx
    · exact ha
    · obtain ⟨y, -, hyx⟩ := Relation.TransGen.tail'_iff.1 (hreached x hx)
      exact (hin y x hyx).2
  have := length_le_of_nodup hnodup hlt
  simp only [List.length_cons] at this
  omega

/-- Without a cycle a walk is shorter than the number of vertices. -/
theorem Walks.lt (hin : Within next n) (hac : Acyclic next) {k a b : ℕ} (h : Walks next k a b)
    (ha : a < n) : k < n := h.lt_of_acyclicFrom hin (hac.acyclicFrom a) ha

/-! ## Levels -/

/-- A level depends on which arcs there are, in whatever order they are listed. -/
theorem nextLevel_congr {next' : ℕ → List ℕ}
    (h : ∀ u v, HasArc next u v ↔ HasArc next' u v) : nextLevel next = nextLevel next' := by
  funext level
  have hcover : ∀ {next next' : ℕ → List ℕ}, (∀ u v, HasArc next u v → HasArc next' u v) →
      ∀ v ∈ level.flatMap next, ∃ w ∈ level.flatMap next', compare v w = .eq := by
    intro next next' h v hv
    obtain ⟨u, hu, huv⟩ := List.mem_flatMap.1 hv
    exact ⟨v, List.mem_flatMap.2 ⟨u, hu, h u v huv⟩, Nat.compare_eq_eq.2 rfl⟩
  have halike := Ordered.keepLast_alike (hcover fun u v => (h u v).1) (hcover fun u v => (h u v).2)
  simpa [nextLevel] using halike.map_eq (f := id) fun a _ b _ => Nat.compare_eq_eq.1

theorem levels_congr {next' : ℕ → List ℕ} (h : ∀ u v, HasArc next u v ↔ HasArc next' u v) :
    levels next = levels next' := by
  funext fuel
  induction fuel with
  | zero => rfl
  | succ fuel ih =>
    funext level
    rw [levels, levels, nextLevel_congr h, ih]

/-- **The level after so many steps** holds the vertices that a walk of so many arcs leads to. -/
theorem mem_iterate_nextLevel {v : ℕ} : ∀ {k : ℕ} {level : List ℕ},
    v ∈ (nextLevel next)^[k] level ↔ ∃ u ∈ level, Walks next k u v
  | 0, level => by simp [Walks]
  | k + 1, level => by
    have hmem : ∀ {c : ℕ}, c ∈ nextLevel next level ↔ ∃ u ∈ level, HasArc next u c := by
      intro c
      rw [← List.mem_flatMap]
      refine ⟨Ordered.mem_of_mem_keepLast, fun hc => ?_⟩
      obtain ⟨d, hd, hcd⟩ := Ordered.exists_mem_keepLast compare hc
      rwa [← Nat.compare_eq_eq.1 hcd] at hd
    rw [Function.iterate_succ_apply, mem_iterate_nextLevel]
    constructor
    · rintro ⟨c, hc, hcv⟩
      obtain ⟨u, hu, huc⟩ := hmem.1 hc
      exact ⟨u, hu, c, huc, hcv⟩
    · rintro ⟨u, hu, c, huc, hcv⟩
      exact ⟨c, hmem.2 ⟨u, hu, huc⟩, hcv⟩

theorem nodup_iterate_nextLevel {level : List ℕ} (h : level.Nodup) :
    ∀ k : ℕ, ((nextLevel next)^[k] level).Nodup
  | 0 => h
  | k + 1 => by
    rw [Function.iterate_succ_apply']
    exact (Ordered.increasing_keepLast _).nodup

theorem levels_getElem? {l : List ℕ} : ∀ {fuel k : ℕ} {level : List ℕ}, level ≠ [] →
    ((levels next fuel level)[k]? = some l ↔
      k < fuel ∧ (nextLevel next)^[k] level = l ∧ l ≠ [])
  | 0, k, level, _ => by simp [levels]
  | fuel + 1, 0, level, hne => by
    have hhead : (levels next (fuel + 1) level)[0]? = some level := by
      rw [levels]; split <;> rfl
    rw [hhead]
    simp only [Option.some.injEq, Nat.zero_lt_succ, Function.iterate_zero, id_eq, true_and]
    exact ⟨fun h => ⟨h, h ▸ hne⟩, fun h => h.1⟩
  | fuel + 1, k + 1, level, hne => by
    rw [Function.iterate_succ_apply, levels, Nat.succ_lt_succ_iff]
    cases hbelow : nextLevel next level with
    | nil =>
      have hnil : (nextLevel next)^[k] [] = [] := List.eq_nil_iff_forall_not_mem.2 fun v hv => by
        simpa using mem_iterate_nextLevel.1 hv
      rw [hnil]
      simp [eq_comm]
    | cons a below =>
      rw [List.getElem?_cons_succ]
      exact levels_getElem? (by simp)

/-- **The level after so many steps from a vertex** holds the vertices at this distance from it. -/
theorem mem_level_iff {root k v : ℕ} {l : List ℕ} (h : (levels next n [root])[k]? = some l) :
    v ∈ l ↔ Walks next k root v := by
  obtain ⟨-, rfl, -⟩ := (levels_getElem? (by simp)).1 h
  rw [mem_iterate_nextLevel]
  simp

/-! ## Sources -/

/-- Going back along arcs either ends at a vertex that no arc enters or goes on. -/
theorem walks_or (hin : Within next n) : ∀ (k : ℕ) {v : ℕ}, v < n →
    (∃ s j, (∀ u, ¬ HasArc next u s) ∧ Walks next j s v) ∨ ∃ u < n, Walks next k u v
  | 0, v, hv => .inr ⟨v, hv, rfl⟩
  | k + 1, v, hv => by
    by_cases hsource : ∀ u, ¬ HasArc next u v
    · exact .inl ⟨v, 0, hsource, rfl⟩
    · obtain ⟨p, hpv⟩ : ∃ p, HasArc next p v := by simpa using hsource
      rcases walks_or hin k (hin p v hpv).1 with ⟨s, j, hs, hj⟩ | ⟨u, hu, huk⟩
      · exact .inl ⟨s, j + 1, hs, walks_succ_iff.2 ⟨p, hj, hpv⟩⟩
      · exact .inr ⟨u, hu, walks_succ_iff.2 ⟨p, huk, hpv⟩⟩

/-- **Without a cycle every vertex is reached from one that no arc enters.** -/
theorem exists_source (hin : Within next n) (hac : Acyclic next) {v : ℕ} (hv : v < n) :
    ∃ s k, (∀ u, ¬ HasArc next u s) ∧ Walks next k s v := by
  rcases walks_or hin n hv with hreach | ⟨u, hu, hlong⟩
  · exact hreach
  · exact absurd (hlong.lt hin hac hu) (lt_irrefl n)

/-! ## Rooted trees -/

/-- **A tree below `root`**: no cycle, no arc into the root, one arc into every other vertex. -/
structure Rooted (next : ℕ → List ℕ) (n root : ℕ) : Prop where
  within : Within next n
  acyclic : Acyclic next
  root_lt : root < n
  no_arc : ∀ u, ¬ HasArc next u root
  exists_arc : ∀ v < n, v ≠ root → ∃ u, HasArc next u v
  arc_unique : ∀ {u w v : ℕ}, HasArc next u v → HasArc next w v → u = w

namespace Rooted

variable {root : ℕ}

/-- Every vertex has a walk from the root. -/
theorem exists_walks (h : Rooted next n root) {v : ℕ} (hv : v < n) :
    ∃ k, Walks next k root v := by
  obtain ⟨s, k, hs, hk⟩ := exists_source h.within h.acyclic hv
  have hlt : s < n := by
    cases k with
    | zero => obtain rfl := hk; exact hv
    | succ k =>
      obtain ⟨b, hsb, -⟩ := hk
      exact (h.within s b hsb).1
  by_cases hroot : s = root
  · exact ⟨k, hroot ▸ hk⟩
  · obtain ⟨u, hu⟩ := h.exists_arc s hlt hroot
    exact absurd hu (hs u)

/-- All walks from the root to a vertex are of one length. -/
theorem walks_unique (h : Rooted next n root) : ∀ {j k v : ℕ},
    Walks next j root v → Walks next k root v → j = k
  | 0, 0, _, _, _ => rfl
  | 0, k + 1, _, rfl, hk =>
    let ⟨u, _, hu⟩ := walks_succ_iff.1 hk
    absurd hu (h.no_arc u)
  | j + 1, 0, _, hj, rfl =>
    let ⟨u, _, hu⟩ := walks_succ_iff.1 hj
    absurd hu (h.no_arc u)
  | j + 1, k + 1, v, hj, hk => by
    obtain ⟨u, hju, huv⟩ := walks_succ_iff.1 hj
    obtain ⟨w, hkw, hwv⟩ := walks_succ_iff.1 hk
    obtain rfl := h.arc_unique huv hwv
    rw [h.walks_unique hju hkw]

/-- Every vertex is on the level of its distance from the root. -/
theorem exists_level (h : Rooted next n root) {k v : ℕ} (hk : Walks next k root v) :
    ∃ l, (levels next n [root])[k]? = some l ∧ v ∈ l := by
  have hmem : v ∈ (nextLevel next)^[k] [root] := mem_iterate_nextLevel.2 ⟨root, by simp, hk⟩
  have hlt : k < n := hk.lt h.within h.acyclic h.root_lt
  exact ⟨_, (levels_getElem? (by simp)).2 ⟨hlt, rfl, List.ne_nil_of_mem hmem⟩, hmem⟩

theorem lt_of_walks (h : Rooted next n root) : ∀ {k v : ℕ}, Walks next k root v → v < n
  | 0, _, rfl => h.root_lt
  | _ + 1, v, hk =>
    let ⟨w, _, hwv⟩ := walks_succ_iff.1 hk
    (h.within w v hwv).2

theorem mem_levels (h : Rooted next n root) {v : ℕ} :
    v ∈ (levels next n [root]).flatten ↔ v < n := by
  rw [List.mem_flatten]
  constructor
  · rintro ⟨l, hl, hv⟩
    obtain ⟨k, hk⟩ := List.mem_iff_getElem?.1 hl
    exact h.lt_of_walks ((mem_level_iff hk).1 hv)
  · intro hv
    obtain ⟨k, hk⟩ := h.exists_walks hv
    obtain ⟨l, hl, hvl⟩ := h.exists_level hk
    exact ⟨l, List.mem_of_getElem? hl, hvl⟩

theorem nodup_levels (h : Rooted next n root) : (levels next n [root]).flatten.Nodup := by
  refine List.nodup_flatten.2 ⟨fun l hl => ?_, List.pairwise_iff_getElem.2 fun i j hi hj hij => ?_⟩
  · obtain ⟨k, hk⟩ := List.mem_iff_getElem?.1 hl
    obtain ⟨-, rfl, -⟩ := (levels_getElem? (by simp)).1 hk
    exact nodup_iterate_nextLevel (by simp) k
  · intro v hvi hvj
    have hi := (mem_level_iff (List.getElem?_eq_getElem hi)).1 hvi
    have hj := (mem_level_iff (List.getElem?_eq_getElem hj)).1 hvj
    exact absurd (h.walks_unique hi hj) hij.ne

/-- **The levels below the root list every vertex once.** -/
theorem levels_perm (h : Rooted next n root) :
    (levels next n [root]).flatten.Perm (List.range n) :=
  (List.perm_ext_iff_of_nodup h.nodup_levels List.nodup_range).2 fun v => by
    rw [h.mem_levels, List.mem_range]

end Rooted

end Metalanguage.Digraph
