import Mathlib.Data.List.Forall2
import Mathlib.Data.List.Perm.Subperm
import Mathlib.Data.List.Sort
import Metalanguage.Ordered

/-!
# Proofs/Ordered/Laws — sorted lists and sets under a lawful comparison

A comparison may leave different entries level (`cmp a b = .eq`). Two lists are `Alike` when they
are level entry by entry; a sorted list is determined up to that by how often each class of level
entries occurs (`alike_of_sorted`), a set by the classes themselves (`alike_of_increasing`). So
sorting, which is the library's insertion sort (`sort_eq_insertionSort`), forgets the order that a
list came in (`sort_alike`), and forgets it for good where no two entries are level
(`sort_eq_of_perm`).
-/

namespace Metalanguage.Ordered

open Std

variable {α β : Type*} {cmp : α → α → Ordering}

/-- No entry is above a later one. -/
abbrev Sorted (cmp : α → α → Ordering) (l : List α) : Prop :=
  l.Pairwise fun a b => (cmp a b).isLE

/-- Each entry is below the later ones. -/
abbrev Increasing (cmp : α → α → Ordering) (l : List α) : Prop :=
  l.Pairwise fun a b => cmp a b = .lt

/-- **The comparison cannot tell the two lists apart**, entry by entry. -/
abbrev Alike (cmp : α → α → Ordering) (l m : List α) : Prop :=
  List.Forall₂ (fun a b => cmp a b = .eq) l m

theorem Increasing.sorted {l : List α} (h : Increasing cmp l) : Sorted cmp l :=
  h.imp fun hab => by rw [hab]; rfl

/-! ## Lists that are alike -/

/-- A function that cannot tell level entries apart gives the same list of alike lists. -/
theorem Alike.map_eq {l m : List α} (h : Alike cmp l m) {f : α → β}
    (hf : ∀ a ∈ l, ∀ b ∈ m, cmp a b = .eq → f a = f b) : l.map f = m.map f := by
  induction h with
  | nil => rfl
  | @cons a b l m hab _ ih =>
    rw [List.map_cons, List.map_cons, hf a (by simp) b (by simp) hab,
      ih fun c hc d hd => hf c (List.mem_cons_of_mem _ hc) d (List.mem_cons_of_mem _ hd)]

/-- Images of lists that are alike are alike, if the images of level entries are level. -/
theorem Alike.map {cmp' : β → β → Ordering} {l m : List α} (h : Alike cmp l m) {f : α → β}
    (hf : ∀ {a b}, cmp a b = .eq → cmp' (f a) (f b) = .eq) : Alike cmp' (l.map f) (m.map f) := by
  induction h with
  | nil => exact .nil
  | cons hab _ ih => exact .cons (hf hab) ih

/-- What is picked alike from lists that are alike is alike. -/
theorem Alike.filter {l m : List α} (h : Alike cmp l m) {p q : α → Bool}
    (hpq : ∀ {a b}, cmp a b = .eq → p a = q b) : Alike cmp (l.filter p) (m.filter q) := by
  induction h with
  | nil => exact .nil
  | @cons a b _ _ hab _ ih =>
    rw [List.filter_cons, List.filter_cons, hpq hab]
    cases q b with
    | true => exact .cons hab ih
    | false => exact ih

/-- A relation that cannot tell level entries apart holds along both lists or neither. -/
theorem Alike.isChain {r : α → α → Prop}
    (hr : ∀ {a a' b b'}, cmp a a' = .eq → cmp b b' = .eq → r a b → r a' b') :
    ∀ {l m : List α}, Alike cmp l m → l.IsChain r → m.IsChain r
  | _, _, .nil, _ => .nil
  | _, _, .cons _ .nil, _ => .singleton _
  | _, _, .cons hab (.cons hcd h), hl => by
    obtain ⟨hrel, hl⟩ := List.isChain_cons_cons.1 hl
    exact .cons_cons (hr hab hcd hrel) (Alike.isChain hr (.cons hcd h) hl)

theorem exists_mem_of_forall₂ {R : α → β → Prop} {l : List α} {m : List β}
    (h : List.Forall₂ R l m) {a : α} (ha : a ∈ l) : ∃ b ∈ m, R a b := by
  induction h with
  | nil => simp at ha
  | @cons c d l m hcd _ ih =>
    rcases List.mem_cons.1 ha with rfl | ha
    · exact ⟨d, by simp, hcd⟩
    · obtain ⟨b, hb, hab⟩ := ih ha
      exact ⟨b, List.mem_cons_of_mem _ hb, hab⟩

/-- Where each entry has its like there is a list of them. -/
theorem exists_forall₂ {R : α → β → Prop} : ∀ {l : List α}, (∀ a ∈ l, ∃ b, R a b) →
    ∃ m, List.Forall₂ R l m
  | [], _ => ⟨[], .nil⟩
  | _ :: _, h => by
    obtain ⟨b, hb⟩ := h _ List.mem_cons_self
    obtain ⟨m, hm⟩ := exists_forall₂ fun a ha => h a (List.mem_cons_of_mem _ ha)
    exact ⟨b :: m, .cons hb hm⟩

/-- Likes of entries that `f` keeps apart are apart, if `f` cannot tell what has the same like. -/
theorem nodup_of_forall₂ {γ : Type*} {R : α → β → Prop} {f : α → γ} {l : List α} {m : List β}
    (h : List.Forall₂ R l m) (hR : ∀ {a a' b}, R a b → R a' b → f a = f a')
    (hl : (l.map f).Nodup) : m.Nodup := by
  induction h with
  | nil => exact .nil
  | @cons a b l m hab hlm ih =>
    obtain ⟨ha, hl⟩ := List.nodup_cons.1 hl
    refine List.nodup_cons.2 ⟨fun hb => ha ?_, ih hl⟩
    obtain ⟨a', ha', hab'⟩ := exists_mem_of_forall₂ hlm.flip hb
    exact List.mem_map.2 ⟨a', ha', hR hab' hab⟩

section Alike

variable [TransCmp cmp]

theorem level_self (cmp : α → α → Ordering) [ReflCmp cmp] (a : α) : cmp a a = .eq :=
  ReflCmp.compare_self

theorem Alike.refl (l : List α) : Alike cmp l l := List.forall₂_same.2 fun _ _ => level_self cmp _

theorem Alike.symm {l m : List α} (h : Alike cmp l m) : Alike cmp m l :=
  h.flip.imp fun _ _ hab => OrientedCmp.eq_symm hab

theorem Alike.trans {l m : List α} (h : Alike cmp l m) :
    ∀ {k : List α}, Alike cmp m k → Alike cmp l k := by
  induction h with
  | nil => intro k hk; exact hk
  | cons hab _ ih =>
    intro k hk
    cases hk with
    | cons hbc hmk => exact .cons (TransCmp.eq_trans hab hbc) (ih hmk)

/-- Alike lists hold each class of level entries equally often. -/
theorem Alike.countP_eq {l m : List α} (h : Alike cmp l m) (x : α) :
    l.countP (cmp x · == .eq) = m.countP (cmp x · == .eq) := by
  induction h with
  | nil => rfl
  | cons hab _ ih => rw [List.countP_cons, List.countP_cons, ih, TransCmp.congr_right hab]

end Alike

/-- Two lists are level exactly when they are alike. -/
theorem compare_list_eq_iff [Ord α] : ∀ {l m : List α},
    compare l m = .eq ↔ Alike compare l m
  | [], [] => by simp
  | [], _ :: _ => by simp
  | _ :: _, [] => by simp
  | a :: l, b :: m => by
    rw [List.compare_cons_cons, Ordering.then_eq_eq, compare_list_eq_iff]
    exact ⟨fun ⟨hab, hlm⟩ => .cons hab hlm, fun | .cons hab hlm => ⟨hab, hlm⟩⟩

/-! ## Sorting -/

/-- An entry is put in front of what it is not above, as the library does it. -/
theorem insertSorted_eq_orderedInsert (x : α) : ∀ l : List α,
    insertSorted cmp x l = l.orderedInsert (fun a b => (cmp a b).isLE) x
  | [] => rfl
  | y :: l => by
    rw [insertSorted, List.orderedInsert_cons, insertSorted_eq_orderedInsert x l]
    cases cmp x y <;> rfl

/-- **Sorting is the library's insertion sort**, so what it knows of that holds here. -/
theorem sort_eq_insertionSort (l : List α) :
    sort cmp l = l.insertionSort fun a b => (cmp a b).isLE := by
  induction l with
  | nil => rfl
  | cons x l ih => rw [sort_cons, ih, insertSorted_eq_orderedInsert, List.insertionSort_cons]

/-- **Sorting loses nothing and adds nothing.** -/
theorem sort_perm (cmp : α → α → Ordering) (l : List α) : (sort cmp l).Perm l := by
  rw [sort_eq_insertionSort]
  exact List.perm_insertionSort _ l

theorem mem_sort {a : α} {l : List α} : a ∈ sort cmp l ↔ a ∈ l := (sort_perm cmp l).mem_iff

/-- A list in order stays as it is. -/
theorem sort_of_sorted {l : List α} (h : Sorted cmp l) : sort cmp l = l := by
  rw [sort_eq_insertionSort]
  exact h.insertionSort_eq

section Sorting

variable [TransCmp cmp]

/-- **Sorting sorts.** -/
theorem sorted_sort (l : List α) : Sorted cmp (sort cmp l) := by
  have htotal : Std.Total fun a b => (cmp a b).isLE := ⟨fun a b => by
    have hswap : cmp b a = (cmp a b).swap := OrientedCmp.eq_swap
    rw [hswap]
    cases cmp a b <;> decide⟩
  have htrans : IsTrans α fun a b => (cmp a b).isLE := ⟨fun _ _ _ => TransCmp.isLE_trans⟩
  rw [sort_eq_insertionSort]
  exact List.pairwise_insertionSort _ l

/-- Sorted lists in which each class of level entries occurs equally often are alike. -/
theorem alike_of_sorted : ∀ {l m : List α}, Sorted cmp l → Sorted cmp m →
    (∀ x, l.countP (cmp x · == .eq) = m.countP (cmp x · == .eq)) → Alike cmp l m
  | [], [], _, _, _ => .nil
  | [], b :: m, _, _, h => by simpa [level_self cmp] using h b
  | a :: l, [], _, _, h => by simpa [level_self cmp] using h a
  | a :: l, b :: m, hl, hm, h => by
    obtain ⟨ha, hl⟩ := List.pairwise_cons.1 hl
    obtain ⟨hb, hm⟩ := List.pairwise_cons.1 hm
    have least : ∀ {c d : α} {k k' : List α}, (∀ x ∈ k', (cmp d x).isLE) →
        (c :: k).countP (cmp c · == .eq) = (d :: k').countP (cmp c · == .eq) → (cmp d c).isLE := by
      intro c d k k' hd hcount
      have hpos : 0 < (d :: k').countP (cmp c · == .eq) := by
        rw [← hcount]; simp [level_self cmp]
      obtain ⟨e, he, hce⟩ := List.countP_pos_iff.1 hpos
      have hec : cmp e c = .eq := OrientedCmp.eq_symm (by simpa using hce)
      rcases List.mem_cons.1 he with rfl | he
      · rw [hec]; rfl
      · exact TransCmp.isLE_trans (hd e he) (by rw [hec]; rfl)
    have hab : cmp a b = .eq :=
      OrientedCmp.isLE_antisymm (least ha (h b).symm) (least hb (h a))
    refine .cons hab (alike_of_sorted hl hm fun x => ?_)
    have hx := h x
    have hxab : cmp x a = cmp x b := TransCmp.congr_right hab
    simp only [List.countP_cons, hxab] at hx
    omega

/-- **Sorting forgets the order that a list came in**, and cannot tell level entries apart. -/
theorem sort_alike {l m k : List α} (h : Alike cmp l m) (hp : m.Perm k) :
    Alike cmp (sort cmp l) (sort cmp k) :=
  alike_of_sorted (sorted_sort l) (sorted_sort k) fun x => by
    rw [(sort_perm cmp l).countP_eq, (sort_perm cmp k).countP_eq, h.countP_eq, hp.countP_eq]

/-- What level entries share is listed in the same order. -/
theorem map_sort_eq_of_perm {l m : List α} (h : l.Perm m) {f : α → β}
    (hf : ∀ a ∈ l, ∀ b ∈ l, cmp a b = .eq → f a = f b) :
    (sort cmp l).map f = (sort cmp m).map f :=
  (sort_alike (.refl l) h).map_eq fun a ha b hb =>
    hf a (mem_sort.1 ha) b (h.mem_iff.2 (mem_sort.1 hb))

/-- **Where no two entries are level, sorting forgets the order altogether.** -/
theorem sort_eq_of_perm {l m : List α} (h : l.Perm m)
    (hl : ∀ a ∈ l, ∀ b ∈ l, cmp a b = .eq → a = b) : sort cmp l = sort cmp m := by
  simpa using map_sort_eq_of_perm (f := id) h hl

end Sorting

/-! ## Sets -/

/-- What is in a set afterwards was put in or was there. -/
theorem mem_insertNew {a x : α} : ∀ {l : List α}, a ∈ insertNew cmp x l → a = x ∨ a ∈ l
  | [], h => by simpa [insertNew] using h
  | y :: l, h => by
    simp only [insertNew] at h
    split at h
    · simpa using h
    · exact .inr h
    · rcases List.mem_cons.1 h with rfl | h
      · simp
      · rcases mem_insertNew h with rfl | h <;> simp_all

/-- An entry that is level with none of the others joins them. -/
theorem insertNew_perm {x : α} : ∀ {l : List α}, has cmp x l = false →
    (insertNew cmp x l).Perm (x :: l)
  | [], _ => .refl _
  | y :: l, h => by
    obtain ⟨hy, hl⟩ : (cmp x y == .eq) = false ∧ has cmp x l = false := by
      simpa [has] using h
    simp only [insertNew]
    split
    · exact .refl _
    · next heq => simp [heq] at hy
    · exact ((insertNew_perm hl).cons y).trans (.swap x y l)

/-- What is kept was there. -/
theorem mem_of_mem_keepLast {a : α} : ∀ {l : List α}, a ∈ keepLast cmp l → a ∈ l
  | [], h => h
  | x :: l, h => by
    rcases mem_insertNew h with rfl | h
    · simp
    · exact List.mem_cons_of_mem _ (mem_of_mem_keepLast h)

theorem mem_of_mem_keepFirst {a : α} {l : List α} (h : a ∈ keepFirst cmp l) : a ∈ l := by
  rw [keepFirst_eq_keepLast_reverse] at h
  simpa using mem_of_mem_keepLast h

/-- An entry is put in at most once, and no other one is lost or doubled. -/
theorem insertNew_subperm (x : α) : ∀ l : List α, (insertNew cmp x l).Subperm (x :: l)
  | [] => .refl _
  | y :: l => by
    simp only [insertNew]
    split
    · exact .refl _
    · exact (List.sublist_cons_self x (y :: l)).subperm
    · exact ((List.subperm_cons y).2 (insertNew_subperm x l)).trans (List.Perm.swap x y l).subperm

/-- **A set holds nothing more often than the list that it comes from**, whatever the comparison. -/
theorem keepLast_subperm : ∀ l : List α, (keepLast cmp l).Subperm l
  | [] => .refl _
  | x :: l => (insertNew_subperm x _).trans ((List.subperm_cons x).2 (keepLast_subperm l))

theorem keepFirst_subperm (l : List α) : (keepFirst cmp l).Subperm l := by
  rw [keepFirst_eq_keepLast_reverse]
  exact (keepLast_subperm l.reverse).trans (List.reverse_perm l).subperm

/-- Whether an entry level with `x` is there. -/
theorem has_iff {x : α} {l : List α} : has cmp x l = true ↔ ∃ y ∈ l, cmp x y = .eq := by
  simp [has]

section Sets

variable [TransCmp cmp]

/-- **A set stays one** when an entry is put in. -/
theorem increasing_insertNew (x : α) : ∀ {l : List α}, Increasing cmp l →
    Increasing cmp (insertNew cmp x l)
  | [], _ => by simp [insertNew]
  | y :: l, h => by
    obtain ⟨hy, hl⟩ := List.pairwise_cons.1 h
    cases hxy : cmp x y with
    | eq => simpa only [insertNew, hxy] using h
    | lt =>
      simp only [insertNew, hxy]
      refine List.pairwise_cons.2 ⟨fun b hb => ?_, h⟩
      rcases List.mem_cons.1 hb with rfl | hb
      · exact hxy
      · exact TransCmp.lt_trans hxy (hy b hb)
    | gt =>
      simp only [insertNew, hxy]
      refine List.pairwise_cons.2 ⟨fun b hb => ?_, increasing_insertNew x hl⟩
      rcases mem_insertNew hb with rfl | hb
      · exact OrientedCmp.lt_of_gt hxy
      · exact hy b hb

/-- **A collected set is strictly increasing.** -/
theorem increasing_keepLast : ∀ l : List α, Increasing cmp (keepLast cmp l)
  | [] => List.Pairwise.nil
  | x :: l => increasing_insertNew x (increasing_keepLast l)

theorem increasing_keepFirst (l : List α) : Increasing cmp (keepFirst cmp l) := by
  rw [keepFirst_eq_keepLast_reverse]
  exact increasing_keepLast _

variable (cmp) in
/-- Nothing is lost but what is level with something that is there. -/
theorem exists_mem_insertNew {a x : α} : ∀ {l : List α}, a = x ∨ a ∈ l →
    ∃ b ∈ insertNew cmp x l, cmp a b = .eq
  | [], h => ⟨x, by simp [insertNew], by simp_all [level_self cmp]⟩
  | y :: l, h => by
    cases hxy : cmp x y with
    | lt =>
      simp only [insertNew, hxy]
      exact ⟨a, by simpa using h, level_self cmp a⟩
    | eq =>
      simp only [insertNew, hxy]
      rcases h with rfl | h
      · exact ⟨y, by simp, hxy⟩
      · exact ⟨a, h, level_self cmp a⟩
    | gt =>
      simp only [insertNew, hxy]
      by_cases ha : a = y
      · exact ⟨y, by simp, by rw [ha]; exact level_self cmp y⟩
      · obtain ⟨b, hb, hab⟩ := exists_mem_insertNew
          (h.imp_right fun h => (List.mem_cons.1 h).resolve_left ha)
        exact ⟨b, List.mem_cons_of_mem _ hb, hab⟩

variable (cmp) in
/-- **A collected set leaves no class of level entries out.** -/
theorem exists_mem_keepLast {a : α} : ∀ {l : List α}, a ∈ l →
    ∃ b ∈ keepLast cmp l, cmp a b = .eq
  | x :: l, h => by
    rcases List.mem_cons.1 h with rfl | h
    · exact exists_mem_insertNew cmp (.inl rfl)
    · obtain ⟨b, hb, hab⟩ := exists_mem_keepLast h
      obtain ⟨c, hc, hbc⟩ := exists_mem_insertNew cmp (x := x) (.inr hb)
      exact ⟨c, hc, TransCmp.eq_trans hab hbc⟩

variable (cmp) in
/-- To keep the first of level entries loses no class of them either. -/
theorem exists_mem_keepFirst {a : α} {l : List α} (h : a ∈ l) :
    ∃ b ∈ keepFirst cmp l, cmp a b = .eq := by
  rw [keepFirst_eq_keepLast_reverse]
  exact exists_mem_keepLast cmp (by simpa using h)

/-- **The entries of a set compare as their positions do.** -/
theorem Increasing.cmp_getElem {l : List α} (h : Increasing cmp l) {i j : ℕ} (hi : i < l.length)
    (hj : j < l.length) : cmp l[i] l[j] = compare i j := by
  rcases Nat.lt_trichotomy i j with hij | rfl | hij
  · rw [Nat.compare_eq_lt.2 hij, List.pairwise_iff_getElem.1 h i j hi hj hij]
  · rw [level_self cmp, level_self compare]
  · rw [Nat.compare_eq_gt.2 hij,
      OrientedCmp.gt_of_lt (List.pairwise_iff_getElem.1 h j i hj hi hij)]

/-- Level entries of a set are the same entry. -/
theorem Increasing.eq_of_level {l : List α} (h : Increasing cmp l) {a b : α} (ha : a ∈ l)
    (hb : b ∈ l) (hab : cmp a b = .eq) : a = b := by
  obtain ⟨i, hi, rfl⟩ := List.getElem_of_mem ha
  obtain ⟨j, hj, rfl⟩ := List.getElem_of_mem hb
  rw [h.cmp_getElem hi hj] at hab
  obtain rfl := Nat.compare_eq_eq.1 hab
  rfl

theorem Increasing.nodup {l : List α} (h : Increasing cmp l) : l.Nodup :=
  h.imp fun hab hne => by rw [hne, level_self cmp] at hab; cases hab

/-- A set that has an entry level with `x` stays as it is. -/
theorem Increasing.insertNew_eq {x : α} : ∀ {l : List α}, Increasing cmp l →
    has cmp x l = true → insertNew cmp x l = l
  | y :: l, h, hx => by
    obtain ⟨hy, hl⟩ := List.pairwise_cons.1 h
    obtain ⟨z, hz, hxz⟩ := has_iff.1 hx
    cases hxy : cmp x y with
    | lt =>
      have hlt : cmp x z = .lt := by
        rcases List.mem_cons.1 hz with rfl | hz
        · exact hxy
        · exact TransCmp.lt_trans hxy (hy z hz)
      rw [hxz] at hlt
      cases hlt
    | eq => simp only [insertNew, hxy]
    | gt =>
      have hz : z ∈ l := (List.mem_cons.1 hz).resolve_left fun h => by
        rw [h, hxy] at hxz
        cases hxz
      simp only [insertNew, hxy]
      rw [insertNew_eq hl (has_iff.2 ⟨z, hz, hxz⟩)]

/-- **Sets of the same classes of level entries are alike.** -/
theorem alike_of_increasing : ∀ {l m : List α}, Increasing cmp l → Increasing cmp m →
    (∀ a ∈ l, ∃ b ∈ m, cmp a b = .eq) → (∀ b ∈ m, ∃ a ∈ l, cmp b a = .eq) → Alike cmp l m
  | [], [], _, _, _, _ => .nil
  | [], b :: m, _, _, _, h => by simpa using h b
  | a :: l, [], _, _, h, _ => by simpa using h a
  | a :: l, b :: m, hl, hm, hlm, hml => by
    obtain ⟨ha, hl⟩ := List.pairwise_cons.1 hl
    obtain ⟨hb, hm⟩ := List.pairwise_cons.1 hm
    have least : ∀ {c d : α} {k : List α}, (∀ x ∈ k, cmp d x = .lt) →
        (∃ e ∈ d :: k, cmp c e = .eq) → (cmp d c).isLE := by
      rintro c d k hd ⟨e, he, hce⟩
      rcases List.mem_cons.1 he with rfl | he
      · rw [OrientedCmp.eq_symm hce]; rfl
      · rw [TransCmp.congr_right hce, hd e he]; rfl
    have hab : cmp a b = .eq :=
      OrientedCmp.isLE_antisymm (least ha (hml b (by simp))) (least hb (hlm a (by simp)))
    have tail : ∀ {c d : α} {k k' : List α}, cmp c d = .eq → (∀ x ∈ k, cmp c x = .lt) →
        (∀ x ∈ c :: k, ∃ y ∈ d :: k', cmp x y = .eq) → ∀ x ∈ k, ∃ y ∈ k', cmp x y = .eq := by
      intro c d k k' hcd hc h x hx
      obtain ⟨y, hy, hxy⟩ := h x (List.mem_cons_of_mem _ hx)
      rcases List.mem_cons.1 hy with rfl | hy
      · have := hc x hx
        rw [TransCmp.congr_right (TransCmp.eq_trans hxy (OrientedCmp.eq_symm hcd)),
          level_self cmp] at this
        cases this
      · exact ⟨y, hy, hxy⟩
    exact .cons hab (alike_of_increasing hl hm (tail hab ha hlm)
      (tail (OrientedCmp.eq_symm hab) hb hml))

/-- What is alike to a set is a set. -/
theorem Increasing.of_alike {l m : List α} (h : Increasing cmp l) (halike : Alike cmp l m) :
    Increasing cmp m := by
  induction halike with
  | nil => exact .nil
  | @cons a b _ m' hab htail ih =>
    obtain ⟨ha, htail'⟩ := List.pairwise_cons.1 h
    refine List.pairwise_cons.2 ⟨fun d hd => ?_, ih htail'⟩
    obtain ⟨c, hc, hdc⟩ := exists_mem_of_forall₂ htail.flip hd
    rw [← TransCmp.congr_left hab, ← TransCmp.congr_right hdc]
    exact ha c hc

/-- **Sets are alike when they have the same entries.** -/
theorem alike_iff_has {l m : List α} (hl : Increasing cmp l) (hm : Increasing cmp m) :
    Alike cmp l m ↔ ∀ x, has cmp x l = has cmp x m := by
  have cover : ∀ {l m : List α}, Alike cmp l m → ∀ {x}, has cmp x l = true →
      has cmp x m = true := by
    intro l m h x hx
    obtain ⟨a, ha, hxa⟩ := has_iff.1 hx
    obtain ⟨b, hb, hab⟩ := exists_mem_of_forall₂ h ha
    exact has_iff.2 ⟨b, hb, TransCmp.eq_trans hxa hab⟩
  refine ⟨fun h x => Bool.eq_iff_iff.2 ⟨cover h, cover h.symm⟩, fun h => ?_⟩
  refine alike_of_increasing hl hm (fun a ha => ?_) fun b hb => ?_
  · exact has_iff.1 (h a ▸ has_iff.2 ⟨a, ha, level_self cmp a⟩)
  · exact has_iff.1 (h b ▸ has_iff.2 ⟨b, hb, level_self cmp b⟩)

/-- Alike lists are collected into alike sets, whatever order they come in. -/
theorem keepLast_alike {l m : List α} (hlm : ∀ a ∈ l, ∃ b ∈ m, cmp a b = .eq)
    (hml : ∀ b ∈ m, ∃ a ∈ l, cmp b a = .eq) : Alike cmp (keepLast cmp l) (keepLast cmp m) := by
  have cover : ∀ {k k' : List α}, (∀ a ∈ k, ∃ b ∈ k', cmp a b = .eq) →
      ∀ a ∈ keepLast cmp k, ∃ b ∈ keepLast cmp k', cmp a b = .eq := by
    intro k k' h a ha
    obtain ⟨b, hb, hab⟩ := h a (mem_of_mem_keepLast ha)
    obtain ⟨c, hc, hbc⟩ := exists_mem_keepLast cmp hb
    exact ⟨c, hc, TransCmp.eq_trans hab hbc⟩
  exact alike_of_increasing (increasing_keepLast l) (increasing_keepLast m) (cover hlm) (cover hml)

/-- Which of level entries is kept makes no difference up to level. -/
theorem keepFirst_alike_of_mem {l m : List α} (hlm : ∀ a ∈ l, ∃ b ∈ m, cmp a b = .eq)
    (hml : ∀ b ∈ m, ∃ a ∈ l, cmp b a = .eq) : Alike cmp (keepFirst cmp l) (keepFirst cmp m) := by
  rw [keepFirst_eq_keepLast_reverse, keepFirst_eq_keepLast_reverse]
  exact keepLast_alike (by simpa using hlm) (by simpa using hml)

theorem keepFirst_alike {l m : List α} (h : Alike cmp l m) :
    Alike cmp (keepFirst cmp l) (keepFirst cmp m) :=
  keepFirst_alike_of_mem (fun _ => exists_mem_of_forall₂ h) fun _ => exists_mem_of_forall₂ h.symm

/-- A set is the set collected from it. -/
theorem Increasing.keepLast_eq {l : List α} (h : Increasing cmp l) : keepLast cmp l = l := by
  have hal : Alike cmp (keepLast cmp l) l := alike_of_increasing (increasing_keepLast l) h
    (fun a ha => ⟨a, mem_of_mem_keepLast ha, level_self cmp a⟩)
    fun _ hb => exists_mem_keepLast cmp hb
  simpa using hal.map_eq (f := id) fun a ha b hb => h.eq_of_level (mem_of_mem_keepLast ha) hb

theorem Increasing.keepFirst_eq {l : List α} (h : Increasing cmp l) : keepFirst cmp l = l := by
  have hal : Alike cmp (keepFirst cmp l) l := alike_of_increasing (increasing_keepFirst l) h
    (fun a ha => ⟨a, mem_of_mem_keepFirst ha, level_self cmp a⟩)
    fun _ hb => exists_mem_keepFirst cmp hb
  simpa using hal.map_eq (f := id) fun a ha b hb => h.eq_of_level (mem_of_mem_keepFirst ha) hb

/-! ## Positions -/

omit [TransCmp cmp] in
/-- What is found is level with what was looked for. -/
theorem exists_of_position? {x : α} {l : List α} {i : ℕ} (h : position? cmp x l = some i) :
    ∃ y, l[i]? = some y ∧ cmp x y = .eq := by
  obtain ⟨hi, hx, -⟩ := List.findIdx?_eq_some_iff_getElem.1 h
  exact ⟨l[i], List.getElem?_eq_getElem hi, by simpa using hx⟩

/-- **The position of `x` in a set is where the entry level with it stands.** -/
theorem position?_eq_some_iff {x : α} {l : List α} (hl : Increasing cmp l) {i : ℕ} :
    position? cmp x l = some i ↔ ∃ y, l[i]? = some y ∧ cmp x y = .eq := by
  refine ⟨exists_of_position?, ?_⟩
  rintro ⟨y, hy, hxy⟩
  obtain ⟨hi, rfl⟩ := List.getElem?_eq_some_iff.1 hy
  refine List.findIdx?_eq_some_iff_getElem.2 ⟨hi, by simpa using hxy, fun j hji => ?_⟩
  have hlt := List.pairwise_iff_getElem.1 hl j i (by omega) hi hji
  rw [TransCmp.congr_left hxy, OrientedCmp.gt_of_lt hlt]
  simp

theorem position?_getElem {l : List α} (hl : Increasing cmp l) {i : ℕ} {y : α}
    (hy : l[i]? = some y) : position? cmp y l = some i :=
  (position?_eq_some_iff hl).2 ⟨y, hy, level_self cmp y⟩

omit [TransCmp cmp] in
theorem position?_isSome {x : α} {l : List α} (h : ∃ y ∈ l, cmp x y = .eq) :
    ∃ i, position? cmp x l = some i := by
  refine Option.isSome_iff_exists.1 ?_
  simpa [position?] using h

/-- Level entries are looked for alike. -/
theorem position?_congr {x y : α} (h : cmp x y = .eq) (l : List α) :
    position? cmp x l = position? cmp y l := by
  have : (fun z => cmp x z == .eq) = fun z => cmp y z == .eq :=
    funext fun z => by rw [TransCmp.congr_left h]
  rw [position?, position?, this]

theorem position?_alike {l m : List α} (h : Alike cmp l m) (x : α) :
    position? cmp x l = position? cmp x m := by
  induction h with
  | nil => rfl
  | cons hab _ ih =>
    simp only [position?] at ih ⊢
    rw [List.findIdx?_cons, List.findIdx?_cons, ih, TransCmp.congr_right hab]

/-- A sorted list whose neighbours are never level is strictly increasing. -/
theorem increasing_of_sorted : ∀ {l : List α}, Sorted cmp l →
    (l.IsChain fun a b => cmp a b ≠ .eq) → Increasing cmp l
  | [], _, _ => .nil
  | [_], _, _ => List.pairwise_singleton _ _
  | a :: b :: l, h, hchain => by
    obtain ⟨ha, hl⟩ := List.pairwise_cons.1 h
    obtain ⟨hne, hrest⟩ := List.isChain_cons_cons.1 hchain
    have hab : cmp a b = .lt :=
      (Ordering.isLE_iff_eq_lt_or_eq_eq.1 (ha b (by simp))).resolve_right hne
    have htail := increasing_of_sorted hl hrest
    refine List.pairwise_cons.2 ⟨fun x hx => ?_, htail⟩
    rcases List.mem_cons.1 hx with rfl | hx
    · exact hab
    · exact TransCmp.lt_trans hab ((List.pairwise_cons.1 htail).1 x hx)

end Sets

/-! ## Neighbours -/

/-- If no two neighbours are related there is a chain of the opposite. -/
theorem neighbours?_eq_none_iff {r : α → α → Bool} : ∀ {l : List α},
    neighbours? r l = none ↔ l.IsChain fun a b => r a b = false
  | [] => by simp [neighbours?]
  | [_] => by simp [neighbours?]
  | x :: y :: l => by
    rw [neighbours?, List.isChain_cons_cons, ← neighbours?_eq_none_iff]
    cases r x y <;> simp

/-- Neighbours in a relation that cannot tell level entries apart are found in the same place. -/
theorem neighbours?_alike {r : α → α → Bool}
    (hr : ∀ ⦃a a' b b'⦄, cmp a a' = .eq → cmp b b' = .eq → r a b = r a' b') : ∀ {l m : List α},
      Alike cmp l m → Option.Rel (fun p q => cmp p.1 q.1 = .eq ∧ cmp p.2 q.2 = .eq)
        (neighbours? r l) (neighbours? r m)
  | _, _, .nil => .none
  | _, _, .cons _ .nil => .none
  | _, _, .cons (a := a) (b := a') ha (.cons (a := b) (b := b') hb h) => by
    rw [neighbours?, neighbours?, hr ha hb]
    cases r a' b' with
    | true => exact .some ⟨ha, hb⟩
    | false => exact neighbours?_alike hr (.cons hb h)

theorem neighbours?_map {r : β → β → Bool} {f : α → β} : ∀ l : List α,
    neighbours? r (l.map f) =
      (neighbours? (fun a b => r (f a) (f b)) l).map fun p => (f p.1, f p.2)
  | [] => rfl
  | [_] => rfl
  | a :: b :: l => by
    rw [List.map_cons, List.map_cons, neighbours?, neighbours?]
    cases r (f a) (f b) with
    | true => rfl
    | false => exact neighbours?_map (b :: l)

end Metalanguage.Ordered
