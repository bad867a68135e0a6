import Metalanguage.Proofs.Ordered.Laws

/-!
# Proofs/Ordered/Mapping — sorting and collecting what a function renames

A function that keeps a comparison (`cmp' (f a) (f b) = cmp a b`) commutes with whatever is done to
lists under that comparison: sorting them, collecting them into sets, and looking entries up. Where
the comparison of the images is coarser (`Refines`), a sorted list stays sorted, so sorting before
and after differ at most in the order of level images (`Refines.map_sort`).
-/

namespace Metalanguage.Ordered

variable {α : Type u} {β : Type v} {cmp : α → α → Ordering} {cmp' : β → β → Ordering} {f : α → β}

section Same

variable (hf : ∀ a b, cmp' (f a) (f b) = cmp a b)

include hf

/-- **Sorting commutes with a function that keeps the order.** -/
theorem sort_map (l : List α) : sort cmp' (l.map f) = (sort cmp l).map f := by
  rw [sort_eq_insertionSort, sort_eq_insertionSort]
  exact (List.map_insertionSort _ _ f l fun a _ b _ => by rw [hf]).symm

/-- To put an image among images is to put the entry among entries. -/
theorem insertNew_map (x : α) : ∀ l : List α,
    insertNew cmp' (f x) (l.map f) = (insertNew cmp x l).map f
  | [] => rfl
  | y :: l => by
    rw [List.map_cons, insertNew, insertNew, hf, insertNew_map x l]
    cases cmp x y <;> rfl

/-- **Collecting a set commutes with a function that keeps the order.** -/
theorem keepLast_map : ∀ l : List α, keepLast cmp' (l.map f) = (keepLast cmp l).map f
  | [] => rfl
  | x :: l => by
    rw [List.map_cons, keepLast_cons, keepLast_cons, keepLast_map l, insertNew_map hf]

theorem keepFirst_map (l : List α) : keepFirst cmp' (l.map f) = (keepFirst cmp l).map f := by
  rw [keepFirst_eq_keepLast_reverse, keepFirst_eq_keepLast_reverse, ← List.map_reverse,
    keepLast_map hf]

theorem position?_map (x : α) (l : List α) : position? cmp' (f x) (l.map f) = position? cmp x l := by
  simp only [position?, List.findIdx?_map, Function.comp_def, hf]

end Same

/-! ## A coarser order -/

/-- **The order of the images decides**: where it tells two images apart, the entries stand in the
order of their images. -/
def Refines (cmp : α → α → Ordering) (cmp' : β → β → Ordering) (f : α → β) : Prop :=
  ∀ a b, cmp' (f a) (f b) ≠ .eq → cmp a b = cmp' (f a) (f b)

namespace Refines

variable (h : Refines cmp cmp' f)

include h

/-- What is sorted finely is sorted coarsely. -/
theorem sorted_map {l : List α} (hl : Sorted cmp l) : Sorted cmp' (l.map f) := by
  refine List.pairwise_map.2 (hl.imp fun {a b} hab => ?_)
  by_cases hlevel : cmp' (f a) (f b) = .eq
  · rw [hlevel]
    rfl
  · rwa [← h a b hlevel]

/-- **Sorting before is as good as sorting after**, for what level images have in common. -/
theorem map_sort [Std.TransCmp cmp] [Std.TransCmp cmp'] {γ : Type w} {l : List α} {k : β → γ}
    (hk : ∀ a ∈ l.map f, ∀ b ∈ l.map f, cmp' a b = .eq → k a = k b) :
    ((sort cmp l).map f).map k = (sort cmp' (l.map f)).map k := by
  have hsorted : Sorted cmp' ((sort cmp l).map f) := h.sorted_map (sorted_sort l)
  have hperm : (l.map f).Perm ((sort cmp l).map f) := ((sort_perm cmp l).map f).symm
  calc ((sort cmp l).map f).map k
      _ = (sort cmp' ((sort cmp l).map f)).map k := by rw [sort_of_sorted hsorted]
      _ = (sort cmp' (l.map f)).map k := (map_sort_eq_of_perm hperm hk).symm

end Refines

end Metalanguage.Ordered
