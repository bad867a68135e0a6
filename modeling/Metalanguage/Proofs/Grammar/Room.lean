import Mathlib.Algebra.Order.BigOperators.Group.List
import Mathlib.Algebra.Order.Group.Nat
import Metalanguage.Proofs.Grammar.Reading

/-!
# Proofs/Grammar/Room — the bytes that a value takes in a text

`Takes g R` says that whatever `g` spells for a value has a number of bytes that `R` relates to the
value. Parts of a text share the bytes of the whole, which may hold marks and blanks beside: a
sequence takes what its parts take, and a repetition what its rounds take together (`Shared`).
-/

namespace Metalanguage.Grammar

open List (Forall₂)

variable {α β : Type}

/-- **The room that values take**: what is spelled for a value has as many bytes as `R` admits. -/
def Takes (g : Grammar α) (R : ℕ → α → Prop) : Prop :=
  ∀ ⦃o : ℕ⦄ ⦃cs : List Char⦄ ⦃x : α⦄, Spells g o cs x → R (byteLength cs) x

/-- A value with so many bytes beside. -/
def Beside (k : ℕ) (R : ℕ → α → Prop) (n : ℕ) (x : α) : Prop := ∃ a, a + k ≤ n ∧ R a x

/-- **Values that share some room**: each has a part of it. -/
def Shared (R : ℕ → α → Prop) (n : ℕ) (l : List α) : Prop := ∃ ns, ns.sum ≤ n ∧ Forall₂ R ns l

/-! ## Shares -/

section Shares

variable {R : ℕ → α → Prop} {R' : ℕ → β → Prop} {n m : ℕ} {l : List α}

/-- More room does no harm. -/
theorem Shared.mono (h : Shared R n l) (hnm : n ≤ m) : Shared R m l := by
  obtain ⟨ns, hns, hall⟩ := h
  exact ⟨ns, hns.trans hnm, hall⟩

theorem shared_nil : Shared R n [] := ⟨[], Nat.zero_le n, .nil⟩

/-- A share is added to the room with its entry. -/
theorem Shared.cons {x : α} {a : ℕ} (hx : R a x) (h : Shared R n l) :
    Shared R (a + n) (x :: l) := by
  obtain ⟨ns, hns, hall⟩ := h
  exact ⟨a :: ns, by rw [List.sum_cons]; omega, .cons hx hall⟩

/-- Two lists in their rooms are one in both rooms together. -/
theorem Shared.append {l' : List α} (h : Shared R n l) (h' : Shared R m l') :
    Shared R (n + m) (l ++ l') := by
  obtain ⟨ns, hns, hall⟩ := h
  obtain ⟨ms, hms, hall'⟩ := h'
  exact ⟨ns ++ ms, by rw [List.sum_append]; omega, List.rel_append hall hall'⟩

/-- What becomes of values that share some room shares it if each fits into its part. -/
theorem Shared.of_forall₂ {S : α → β → Prop} {l' : List β} (h : Shared R n l)
    (hall : Forall₂ S l l') (hS : ∀ {a x y}, R a x → S x y → R' a y) : Shared R' n l' := by
  obtain ⟨ns, hns, hl⟩ := h
  refine ⟨ns, hns, ?_⟩
  clear hns
  induction hl generalizing l' with
  | nil => cases hall; exact .nil
  | cons hx _ ih =>
    obtain ⟨y, m, hxy, hm, rfl⟩ := List.forall₂_cons_left_iff.1 hall
    exact .cons (hS hx hxy) (ih hm)

/-- Each entry may be known by less. -/
theorem Shared.imp {R' : ℕ → α → Prop} (h : Shared R n l) (hR : ∀ {a x}, R a x → R' a x) :
    Shared R' n l :=
  h.of_forall₂ (List.forall₂_same.2 fun _ _ => rfl) fun hx heq => heq ▸ hR hx

/-- **Weights that fit into their parts** fit into the whole. -/
theorem Shared.sum_le (h : Shared R n l) {w : α → ℕ} (hw : ∀ {a x}, R a x → w x ≤ a) :
    (l.map w).sum ≤ n := by
  obtain ⟨ns, hns, hall⟩ := h
  refine le_trans (Forall₂.sum_le_sum ?_) hns
  exact List.forall₂_map_left_iff.2 (hall.flip.imp fun _ _ hx => hw hx)

/-- The same with a fixed number of bytes beside each entry. -/
theorem Shared.sum_beside_le {b : ℕ} (h : Shared (Beside b R) n l) {w : α → ℕ}
    (hw : ∀ {a x}, R a x → w x ≤ a) : (l.map (w · + b)).sum ≤ n :=
  h.sum_le fun ⟨_, hle, hx⟩ => (Nat.add_le_add_right (hw hx) b).trans hle

/-- What needs no number holds of each entry. -/
theorem Shared.forall (h : Shared R n l) {P : α → Prop} (hP : ∀ {a x}, R a x → P x) :
    ∀ x ∈ l, P x := by
  obtain ⟨ns, -, hall⟩ := h
  intro x hx
  induction hall with
  | nil => cases hx
  | cons hr _ ih =>
    rcases List.mem_cons.1 hx with rfl | hx
    · exact hP hr
    · exact ih hx

/-- **What a list is put together from shares the room** with what stands beside each piece. -/
theorem Shared.exists_split {γ : Type} {S : α → γ → Prop} {A : ℕ → γ → Prop}
    {Q : ℕ → β → Prop} {f : α → List β}
    (h : Shared R n l) (hR : ∀ {m x}, R m x →
      ∃ y a b, a + b ≤ m ∧ S x y ∧ A a y ∧ Shared Q b (f x)) :
    ∃ ys a b, a + b ≤ n ∧ Forall₂ S l ys ∧ Shared A a ys ∧ Shared Q b (l.flatMap f) := by
  obtain ⟨ns, hns, hall⟩ := h
  induction hall generalizing n with
  | nil => exact ⟨[], 0, 0, Nat.zero_le n, .nil, shared_nil, shared_nil⟩
  | @cons m x ns l hx _ ih =>
    obtain ⟨y, a, b, hab, hxy, hy, hfx⟩ := hR hx
    obtain ⟨ys, a', b', hab', hys, hall, hf⟩ := ih (Nat.le_refl ns.sum)
    rw [List.sum_cons] at hns
    exact ⟨y :: ys, a + a', b + b', by omega, .cons hxy hys, hall.cons hy, hfx.append hf⟩

end Shares

/-! ## Combinators -/

section Parts

variable {g : Grammar α} {g' : Grammar β} {R : ℕ → α → Prop} {R' : ℕ → β → Prop}

/-- A renamed value takes the bytes of the value before. -/
theorem Takes.map (h : Takes g R) (φ : α → β) (hR : ∀ {n x}, R n x → R' n (φ x)) :
    Takes (.map φ g) R' := by
  rintro o cs _ ⟨x, hx, rfl⟩
  exact hR (h hx)

theorem Takes.named (h : Takes g R) (rule : Rule) : Takes (.named rule g) R :=
  fun _ _ _ hs => h hs

theorem Takes.placed (h : Takes g R) : Takes (.placed g) fun n x => R n x.2 :=
  fun _ _ _ hs => h hs.2

/-- Either alternative may have taken them. -/
theorem Takes.either {second : Grammar α} (h : Takes g R) (h' : Takes second R) :
    Takes (.either g second) R
  | _, _, _, .inl hs => h hs
  | _, _, _, .inr hs => h' hs

/-- **In a row** two texts take at most the whole: there may be blanks between them. -/
theorem Takes.seq (h : Takes g R) (h' : Takes g' R') :
    Takes (.seq g g') fun n x => ∃ a b, a + b ≤ n ∧ R a x.1 ∧ R' b x.2 := by
  rintro o _ ⟨x, y⟩ ⟨xs, blanks, ys, rfl, -, hxs, hys⟩
  refine ⟨byteLength xs, byteLength ys, ?_, h hxs, h' hys⟩
  simp only [byteLength_append]
  omega

/-- A mark takes one byte, for all marks are of one byte. -/
theorem Takes.markRight (h : Takes g R) (m : Char) : Takes (seqRight (.mark m) g) (Beside 1 R) := by
  rintro o _ x ⟨⟨-, x⟩, ⟨_, blanks, ys, rfl, -, rfl, hys⟩, rfl⟩
  refine ⟨byteLength ys, ?_, h hys⟩
  have hpos := m.utf8Size_pos
  simp only [byteLength_append, byteLength_cons, byteLength_nil]
  omega

theorem Takes.between (h : Takes g R) (opening closing : Char) :
    Takes (.between opening closing g) (Beside 2 R) := by
  rintro o _ x hs
  obtain ⟨blanks, xs, blanks', rfl, -, -, hxs⟩ := spells_between.1 hs
  refine ⟨byteLength xs, ?_, h hxs⟩
  have hopening := opening.utf8Size_pos
  have hclosing := closing.utf8Size_pos
  simp only [byteLength_append, byteLength_cons, byteLength_nil]
  omega

/-- What is left out takes nothing, so nothing is said of it. -/
theorem Takes.optional (h : Takes g R) :
    Takes (Grammar.optional g) fun n x? => ∀ x ∈ x?, R n x := by
  refine Takes.either (h.map some fun hx y hy => ?_) fun _ _ _ hs y hy => ?_
  · obtain rfl := Option.mem_some.1 hy
    exact hx
  · obtain ⟨u, -, heq⟩ := hs
    cases heq.trans hy

/-- **The rounds share what they take**, in the order of the text. -/
theorem Takes.many (h : Takes g R) : Takes (.many g) (Shared R) := by
  intro o cs l hl
  induction hl with
  | nil => exact shared_nil
  | cons first _ _ ih =>
    refine (Shared.cons (h first) ih).mono ?_
    simp only [byteLength_append]
    omega

theorem Takes.some1 (h : Takes g R) : Takes (some1 g) (Shared R) := by
  refine (h.seq h.many).map _ fun hx => ?_
  obtain ⟨a, b, hab, hx, hl⟩ := hx
  exact (hl.cons hx).mono hab

/-- Each value but the last has a mark beside. -/
theorem Takes.separated (h : Takes g R) (separator : Char) :
    Takes (separated separator g) fun n l => Shared (Beside 1 R) (n + 1) l := by
  refine (h.seq (h.markRight separator).many).map _ fun hx => ?_
  obtain ⟨a, b, hab, hx, hl⟩ := hx
  exact (hl.cons (R := Beside 1 R) ⟨a, le_refl _, hx⟩).mono (by omega)

end Parts

/-! ## Scripts and literals -/

/-- Bytes of a string are bytes of its characters. -/
theorem utf8ByteSize_ofList (cs : List Char) : (String.ofList cs).utf8ByteSize = byteLength cs := by
  induction cs with
  | nil => rfl
  | cons c cs ih =>
    rw [String.ofList_cons, String.utf8ByteSize_append, String.utf8ByteSize_singleton, ih,
      byteLength_cons]

theorem utf8ByteSize_eq_byteLength (s : String) : s.utf8ByteSize = byteLength s.toList := by
  rw [← utf8ByteSize_ofList, String.ofList_toList]

/-- A script takes as many bytes as it has: there are no blanks within. -/
theorem takes_script : Takes .script fun n s => s.utf8ByteSize = n := by
  rintro o cs s ⟨-, -, rfl⟩
  exact utf8ByteSize_ofList cs

/-- A literal takes what it is displayed with, and has a body that can be read again. -/
theorem takes_literal : Takes .literal fun n l =>
    l.display.utf8ByteSize = n ∧ LiteralBody l.raw.toList := by
  rintro o cs l ⟨body, hbody, rfl, rfl⟩
  rw [utf8ByteSize_eq_byteLength]
  simpa [Literal.display] using hbody

end Metalanguage.Grammar
