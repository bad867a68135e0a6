import Mathlib.Data.List.Infix
import Metalanguage.Report.Drawing

/-!
# Proofs/Report/Preorder — branches that are listed from the top down

`Preorder` is the order of a drawing: each branch is followed by those below its node, and then come
the branches beside it. The indents of such a list tell what hangs below what: the parent of a branch is
the node of the nearest branch before it that stands one step less far in, or the root
(`Branch.above`, `Preorder.hangs`).
-/

namespace Metalanguage.Branch

variable {N : Type}

@[simp] theorem length_continuation (isLast : Bool) : (continuation isLast).length = 3 := by
  cases isLast <;> rfl

/-! ## From the top down -/

/-- **The branches to some children, from the top down.** `children` lists what every node leads to.
-/
inductive Preorder (children : N → List (N × Clause N)) :
    String → List (N × Clause N) → List (Branch N) → Prop
  | nil {indent : String} : Preorder children indent [] []
  | cons {indent : String} {child : N} {clause : Clause N} {rest : List (N × Clause N)}
    {below beside : List (Branch N)}
    (hbelow : Preorder children (indent ++ continuation rest.isEmpty) (children child) below)
    (hbeside : Preorder children indent rest beside) :
    Preorder children indent ((child, clause) :: rest)
      (⟨indent, rest.isEmpty, child, clause.mode⟩ :: (below ++ beside))

variable {children : N → List (N × Clause N)} {indent : String} {list : List (N × Clause N)}
  {branches : List (Branch N)}

/-- Children that are numbered, the last of them by its number, are listed from the top down if what is
below each of them is. -/
theorem preorder_zipIdx (below : Bool → N → List (Branch N)) {n : ℕ} :
    ∀ {list : List (N × Clause N)} {i : ℕ}, i + list.length = n →
      (∀ x ∈ list, ∀ isLast, Preorder children (indent ++ continuation isLast) (children x.1)
        (below isLast x.1)) →
      Preorder children indent list ((list.zipIdx i).flatMap fun ((child, clause), i) =>
        ⟨indent, i + 1 == n, child, clause.mode⟩ :: below (i + 1 == n) child)
  | [], _, _, _ => .nil
  | (child, clause) :: rest, i, hn, hbelow => by
    have hlast : (i + 1 == n) = rest.isEmpty := by
      cases rest with
      | nil => simpa using hn
      | cons y rest => simp only [List.length_cons] at hn; simp; omega
    rw [List.zipIdx_cons, List.flatMap_cons, List.cons_append]
    simp only [hlast]
    refine .cons (hbelow _ List.mem_cons_self _) (preorder_zipIdx below ?_ fun x hx =>
      hbelow x (List.mem_cons_of_mem _ hx))
    simp only [List.length_cons] at hn
    omega

/-! ## Reading parents off the indents -/

/-- The node of the nearest branch that stands one step less far in than `width`, or the root. The
branches before are listed backwards. -/
def above (root : N) (before : List (Branch N)) (width : ℕ) : N :=
  ((before.find? fun b => b.indent.length + 3 == width).map (·.node)).getD root

/-- The branches of a list, each with the node that stands above it. -/
def withParents (root : N) : List (Branch N) → List (Branch N) → List (N × Branch N)
  | _, [] => []
  | before, b :: after =>
    (above root before b.indent.length, b) :: withParents root (b :: before) after

/-- **The triples that a drawing shows**: for each branch the node above it, its own and its mode. -/
def readBack (root : N) (branches : List (Branch N)) : List (Clause N) :=
  (withParents root [] branches).map fun (parent, b) => ⟨parent, b.node, b.mode⟩

variable {root : N} {before : List (Branch N)}

/-- Parents are put beside the branches, which stay as they are. -/
theorem map_snd_withParents : ∀ {before branches : List (Branch N)},
    (withParents root before branches).map (·.2) = branches
  | _, [] => rfl
  | before, b :: after => by
    rw [withParents, List.map_cons, map_snd_withParents]

/-- A list is given its parents piece by piece: behind the first piece, that piece stands before. -/
theorem withParents_append : ∀ {before l m : List (Branch N)},
    withParents root before (l ++ m) =
      withParents root before l ++ withParents root (l.reverse ++ before) m
  | _, [], _ => rfl
  | before, b :: l, m => by
    rw [List.cons_append, withParents, withParents, withParents_append, List.cons_append,
      List.reverse_cons, List.append_assoc, List.singleton_append]

/-- A branch is listed with the node that stands above it. -/
theorem exists_split_of_mem_withParents : ∀ {before branches : List (Branch N)} {x : N × Branch N},
    x ∈ withParents root before branches → ∃ l m, branches = l ++ x.2 :: m ∧
      x.1 = above root (l.reverse ++ before) x.2.indent.length
  | _, [], _, hx => by cases hx
  | before, b :: after, x, hx => by
    rcases List.mem_cons.1 hx with rfl | hx
    · exact ⟨[], after, rfl, rfl⟩
    · obtain ⟨l, m, rfl, habove⟩ := exists_split_of_mem_withParents hx
      exact ⟨b :: l, m, rfl, by simpa using habove⟩

/-- Each branch is given what stands above it in its own place. -/
theorem mem_withParents {l m : List (Branch N)} {b : Branch N} :
    (above root l.reverse b.indent.length, b) ∈ withParents root [] (l ++ b :: m) := by
  simp [withParents_append, withParents]

/-- What stands above is the root or the node of a branch before. -/
theorem above_eq_or (root : N) (before : List (Branch N)) (width : ℕ) :
    above root before width = root ∨ ∃ b ∈ before, above root before width = b.node := by
  rw [above]
  cases hb : before.find? fun b => b.indent.length + 3 == width with
  | none => exact .inl rfl
  | some b => exact .inr ⟨b, List.mem_of_find?_eq_some hb, rfl⟩

/-- A branch hangs below the one right before it if it stands one step further in. -/
theorem above_cons_self (b : Branch N) : above root (b :: before) (b.indent.length + 3) = b.node := by
  simp [above]

/-- Branches that stand as far in or further hide nothing. -/
theorem above_append {l : List (Branch N)} {width : ℕ} (h : ∀ b ∈ l, width ≤ b.indent.length) :
    above root (l ++ before) width = above root before width := by
  have hnone : l.find? (fun b => b.indent.length + 3 == width) = none :=
    List.find?_eq_none.2 fun b hb => by
      have := h b hb
      simp only [beq_iff_eq]
      omega
  rw [above, List.find?_append, hnone, Option.none_or, above]

/-- **A branch hangs below `p`**: it leads to one of the children with the mode of the clause, and is
marked as the last exactly when it is. -/
def Hangs (children : N → List (N × Clause N)) (p : N) (b : Branch N) : Prop :=
  ∃ clause before after, children p = before ++ (b.node, clause) :: after ∧
    b.mode = clause.mode ∧ b.isLast = after.isEmpty

namespace Preorder

/-- No branch below a node stands less far in than the node's own branches. -/
theorem indent_le (h : Preorder children indent list branches) :
    ∀ b ∈ branches, indent.length ≤ b.indent.length := by
  induction h with
  | nil => simp
  | cons _ _ ihbelow ihbeside =>
    intro b hb
    rcases List.mem_cons.1 hb with rfl | hb
    · exact le_rfl
    · rcases List.mem_append.1 hb with hb | hb
      · have := ihbelow b hb
        simp only [String.length_append, length_continuation] at this
        omega
      · exact ihbeside b hb

/-- **Every branch hangs below the node above it.** -/
theorem hangs (h : Preorder children indent list branches) :
    ∀ {before : List (Branch N)} {p : N}, list <:+ children p →
      above root before indent.length = p →
      ∀ x ∈ withParents root before branches, Hangs children x.1 x.2 := by
  induction h with
  | nil => intro _ _ _ _ x hx; cases hx
  | @cons indent child clause rest below beside hbelow _ ihbelow ihbeside =>
    intro before p hsuffix habove x hx
    let b : Branch N := ⟨indent, rest.isEmpty, child, clause.mode⟩
    rw [withParents, withParents_append] at hx
    rcases List.mem_cons.1 hx with rfl | hx
    · obtain ⟨front, hfront⟩ := hsuffix
      rw [habove]
      exact ⟨clause, front, rest, hfront.symm, rfl, rfl⟩
    rcases List.mem_append.1 hx with hx | hx
    · -- the branches below follow `b` and stand one step further in
      refine ihbelow (List.suffix_refl _) ?_ x hx
      rw [String.length_append, length_continuation]
      exact above_cons_self b
    · -- those beside `b` pass over it and all that is below it
      refine ihbeside ((List.suffix_cons _ _).trans hsuffix) ?_ x hx
      have hpassed : ∀ c ∈ below.reverse ++ [b], indent.length ≤ c.indent.length := by
        intro c hc
        rcases List.mem_append.1 hc with hc | hc
        · have := hbelow.indent_le c (List.mem_reverse.1 hc)
          simp only [String.length_append, length_continuation] at this
          omega
        · rw [List.mem_singleton.1 hc]
      have hskip : above root (below.reverse ++ [b] ++ before) indent.length =
          above root before indent.length := above_append hpassed
      rw [List.append_assoc, List.singleton_append] at hskip
      exact hskip.trans habove

/-- Where every child stands one stage further down, the indent counts the stages. -/
theorem stage {onStage : ℕ → N → Prop}
    (hchild : ∀ {k a x}, onStage k a → x ∈ children a → onStage (k + 1) x.1)
    (h : Preorder children indent list branches) : ∀ {k : ℕ}, indent.length = 3 * k →
      (∀ x ∈ list, onStage (k + 1) x.1) →
      ∀ b ∈ branches, ∃ j, onStage (j + 1) b.node ∧ b.indent.length = 3 * j := by
  induction h with
  | nil => simp
  | @cons indent child clause rest below beside _ _ ihbelow ihbeside =>
    intro k hindent hlist b hb
    have hon := hlist _ List.mem_cons_self
    rcases List.mem_cons.1 hb with rfl | hb
    · exact ⟨k, hon, hindent⟩
    rcases List.mem_append.1 hb with hb | hb
    · refine ihbelow (k := k + 1) ?_ (fun x hx => hchild hon hx) b hb
      rw [String.length_append, length_continuation, hindent]
      omega
    · exact ihbeside hindent (fun x hx => hlist x (List.mem_cons_of_mem _ hx)) b hb

end Preorder

end Metalanguage.Branch
