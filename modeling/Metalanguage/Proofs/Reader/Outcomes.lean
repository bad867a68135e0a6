import Mathlib.Data.List.Perm.Basic
import Metalanguage.Error
import Metalanguage.Literal
import Metalanguage.Proofs.Ordered.Laws
import Metalanguage.Proofs.Sequencing

/-!
# Proofs/Reader/Outcomes — two readings side by side

Two texts that are to be read alike may differ in their blanks, and beside those in their literals
or in the order of what has none (`Variation`). Two readings are compared by their outcomes: both
refuse, with errors that are the same to some measure, or both give results that are related
(`Outcomes`). Outcomes are carried through one step after the other and through lists of steps. Where
the order differs, the first refusal does too, so there nothing is said of a reading that refuses.
-/

namespace Metalanguage

open List (Forall₂)

/-! ## What may differ -/

/-- What two texts may differ in, beside blanks. -/
inductive Variation
  | nothing
  | literals
  | order
  deriving DecidableEq

namespace Variation

variable {α β γ δ : Type} {v : Variation}

/-- The literals behind a word or a sentence. -/
def Literals (v : Variation) (l m : List Literal) : Prop := v = .literals ∨ l = m

/-- Lists whose entries are related one by one; in any order where the order may differ. -/
def Lists (v : Variation) (R : α → β → Prop) (l : List α) (m : List β) : Prop :=
  match v with
  | order => ∃ k, Forall₂ R l k ∧ k.Perm m
  | _ => Forall₂ R l m

/-- Lists that stand for sets; in any order and with any repetitions where the order may differ. -/
def Sets (v : Variation) (R : α → β → Prop) (l : List α) (m : List β) : Prop :=
  match v with
  | order => (∀ a ∈ l, ∃ b ∈ m, R a b) ∧ ∀ b ∈ m, ∃ a ∈ l, R a b
  | _ => Forall₂ R l m

variable {R : α → β → Prop} {l : List α} {m : List β}

/-- In the same order is one of the orders in which entries may come ... -/
theorem lists_of_forall₂ (h : Forall₂ R l m) : v.Lists R l m := by
  cases v with
  | order => exact ⟨m, h, .refl m⟩
  | nothing | literals => exact h

/-- ... and to repeat none is one of the ways to repeat them. -/
theorem sets_of_forall₂ (h : Forall₂ R l m) : v.Sets R l m := by
  cases v with
  | order => exact ⟨fun _ ha => Ordered.exists_mem_of_forall₂ h ha,
      fun _ hb => Ordered.exists_mem_of_forall₂ h.flip hb⟩
  | nothing | literals => exact h

theorem eq_of_forall₂ {l m : List α} (h : Forall₂ Eq l m) : l = m := by
  rwa [List.forall₂_eq_eq_eq] at h

/-- Where nothing may differ literals do not. -/
theorem Literals.eq {l m : List Literal} (h : nothing.Literals l m) : l = m :=
  h.resolve_left nofun

/-- Related lists are alike once the second one is put in order. -/
theorem Lists.exists_perm (h : v.Lists R l m) : ∃ k, Forall₂ R l k ∧ k.Perm m := by
  cases v with
  | order => exact h
  | nothing | literals => exact ⟨m, h, .refl m⟩

/-- Related lists in any order cover each other. -/
theorem Lists.cover (h : v.Lists R l m) :
    (∀ a ∈ l, ∃ b ∈ m, R a b) ∧ ∀ b ∈ m, ∃ a ∈ l, R a b := by
  obtain ⟨k, hk, hperm⟩ := h.exists_perm
  obtain ⟨hforth, hback⟩ := sets_of_forall₂ (v := .order) hk
  exact ⟨fun a ha => (hforth a ha).imp fun _ hb => ⟨hperm.mem_iff.1 hb.1, hb.2⟩,
    fun b hb => hback b (hperm.mem_iff.2 hb)⟩

/-- Each entry has a partner, on either side. -/
theorem Sets.cover (h : v.Sets R l m) :
    (∀ a ∈ l, ∃ b ∈ m, R a b) ∧ ∀ b ∈ m, ∃ a ∈ l, R a b := by
  cases v with
  | order => exact h
  | nothing | literals => exact sets_of_forall₂ (v := .order) h

/-- A relation that asks for less relates the same sets. -/
theorem Sets.mono {R' : α → β → Prop} (h : v.Sets R l m) (hR : ∀ {a b}, R a b → R' a b) :
    v.Sets R' l m := by
  cases v with
  | order => exact ⟨fun a ha => (h.1 a ha).imp fun _ hb => ⟨hb.1, hR hb.2⟩,
      fun b hb => (h.2 b hb).imp fun _ ha => ⟨ha.1, hR ha.2⟩⟩
  | nothing | literals => exact List.Forall₂.imp (fun _ _ => hR) h

/-- What is made of each entry is related if it is made alike. -/
theorem Sets.map {S : γ → δ → Prop} {f : α → γ} {g : β → δ} (h : v.Sets R l m)
    (hfg : ∀ {a b}, R a b → S (f a) (g b)) : v.Sets S (l.map f) (m.map g) := by
  cases v with
  | order => exact ⟨List.forall_mem_map.2 fun a ha => (h.1 a ha).imp' g fun _ hb =>
      ⟨List.mem_map_of_mem hb.1, hfg hb.2⟩, List.forall_mem_map.2 fun b hb => (h.2 b hb).imp' f
        fun _ ha => ⟨List.mem_map_of_mem ha.1, hfg ha.2⟩⟩
  | nothing | literals => exact List.rel_map (fun _ _ hab => hfg hab) h

/-- Sets that are put together from related entries are related. -/
theorem Sets.flatMap {S : γ → δ → Prop} {f : α → List γ} {g : β → List δ} (h : v.Sets R l m)
    (hfg : ∀ {a b}, R a b → v.Sets S (f a) (g b)) : v.Sets S (l.flatMap f) (m.flatMap g) := by
  cases v with
  | order =>
    refine ⟨fun c hc => ?_, fun d hd => ?_⟩
    · obtain ⟨a, ha, hc⟩ := List.mem_flatMap.1 hc
      obtain ⟨b, hb, hab⟩ := h.1 a ha
      obtain ⟨d, hd, hcd⟩ := (hfg hab).1 c hc
      exact ⟨d, List.mem_flatMap.2 ⟨b, hb, hd⟩, hcd⟩
    · obtain ⟨b, hb, hd⟩ := List.mem_flatMap.1 hd
      obtain ⟨a, ha, hab⟩ := h.2 b hb
      obtain ⟨c, hc, hcd⟩ := (hfg hab).2 d hd
      exact ⟨c, List.mem_flatMap.2 ⟨a, ha, hc⟩, hcd⟩
  | nothing | literals => exact forall₂_flatMap h fun _ _ hab => hfg hab

section Carry

variable {S : γ → δ → Prop} {F : α → γ → Prop} {G : β → δ → Prop} {l' : List γ} {m' : List δ}
  (hRS : ∀ ⦃a b c d⦄, R a b → F a c → G b d → S c d)

include hRS

/-- **A relation is carried to values** through those of each side ... -/
theorem forall₂_carry (h : Forall₂ R l m) (hl : Forall₂ F l l') (hm : Forall₂ G m m') :
    Forall₂ S l' m' := by
  induction h generalizing l' m' with
  | nil => cases hl; cases hm; exact .nil
  | cons hab _ ih =>
    cases hl with
    | cons hac hl => cases hm with | cons hbd hm => exact .cons (hRS hab hac hbd) (ih hl hm)

/-- What entries stand for is related as they are. -/
theorem Lists.carry (h : v.Lists R l m) (hl : Forall₂ F l l') (hm : Forall₂ G m m') :
    v.Lists S l' m' := by
  cases v with
  | order =>
    obtain ⟨k, hk, hperm⟩ := h
    obtain ⟨k', hk', hperm'⟩ := List.perm_comp_forall₂ hperm hm
    exact ⟨k', forall₂_carry hRS hk hl hk', hperm'⟩
  | nothing | literals => exact forall₂_carry hRS h hl hm

/-- ... also where partners stand elsewhere and more than once. -/
theorem Sets.carry (h : v.Sets R l m) (hl : Forall₂ F l l') (hm : Forall₂ G m m') :
    v.Sets S l' m' := by
  cases v with
  | order =>
    refine ⟨fun c hc => ?_, fun d hd => ?_⟩
    · obtain ⟨a, ha, hac⟩ := Ordered.exists_mem_of_forall₂ hl.flip hc
      obtain ⟨b, hb, hab⟩ := h.1 a ha
      obtain ⟨d, hd, hbd⟩ := Ordered.exists_mem_of_forall₂ hm hb
      exact ⟨d, hd, hRS hab hac hbd⟩
    · obtain ⟨b, hb, hbd⟩ := Ordered.exists_mem_of_forall₂ hm.flip hd
      obtain ⟨a, ha, hab⟩ := h.2 b hb
      obtain ⟨c, hc, hac⟩ := Ordered.exists_mem_of_forall₂ hl ha
      exact ⟨c, hc, hRS hab hac hbd⟩
  | nothing | literals => exact forall₂_carry hRS h hl hm

end Carry

end Variation

/-! ## Outcomes -/

/-- **The outcomes of two readings**: the same error, or related results. Where the order may differ,
nothing is said of the second reading if the first one refuses. -/
inductive Outcomes {α β : Type} (v : Variation) (same : Error → Error → Prop) (R : α → β → Prop) :
    Except Error α → Except Error β → Prop
  | refused (h : v = .order) (e : Error) (y : Except Error β) : Outcomes v same R (.error e) y
  | error {e e' : Error} (h : same e e') : Outcomes v same R (.error e) (.error e')
  | ok {a : α} {b : β} (h : R a b) : Outcomes v same R (.ok a) (.ok b)

namespace Outcomes

variable {α β γ δ : Type} {v : Variation} {same : Error → Error → Prop} {R : α → β → Prop}
  {S : γ → δ → Prop}

theorem mono {R' : α → β → Prop} {x : Except Error α} {y : Except Error β}
    (h : Outcomes v same R x y) (hR : ∀ {a b}, R a b → R' a b) : Outcomes v same R' x y := by
  cases h with
  | refused hv e y => exact .refused hv e y
  | error he => exact .error he
  | ok hab => exact .ok (hR hab)

theorem of_eq {R : α → α → Prop} (hsame : ∀ e, same e e) (hR : ∀ a, R a a)
    (x : Except Error α) : Outcomes v same R x x := by
  cases x with
  | error e => exact .error (hsame e)
  | ok a => exact .ok (hR a)

/-- One step after another. -/
theorem bind {x : Except Error α} {y : Except Error β} {f : α → Except Error γ}
    {g : β → Except Error δ} (h : Outcomes v same R x y)
    (hfg : ∀ {a b}, R a b → Outcomes v same S (f a) (g b)) :
    Outcomes v same S (x >>= f) (y >>= g) := by
  cases h with
  | refused hv e y => exact .refused hv e _
  | error he => exact .error he
  | ok hab => exact hfg hab

/-- A result is followed by a related one. -/
theorem exists_ok {x : Except Error α} {y : Except Error β} (h : Outcomes v same R x y) {a : α}
    (hx : x = .ok a) : ∃ b, y = .ok b ∧ R a b := by
  cases h with
  | refused | error => cases hx
  | ok hab => cases hx; exact ⟨_, rfl, hab⟩

theorem of_ok {a : α} {b : β} (h : Outcomes v same R (.ok a) (.ok b)) : R a b := by
  cases h with | ok hab => exact hab

section Lists

variable {f : α → Except Error γ} {g : β → Except Error δ} {l : List α} {m : List β}

/-- **Step by step**: both readings stop at the same step, or neither does. -/
theorem mapM (h : Forall₂ (fun a b => Outcomes v same S (f a) (g b)) l m) :
    Outcomes v same (Forall₂ S) (l.mapM f) (m.mapM g) := by
  induction h with
  | nil => exact .ok .nil
  | cons hab _ ih =>
    rw [List.mapM_cons, List.mapM_cons]
    exact hab.bind fun hcd => ih.bind fun hrest => .ok (.cons hcd hrest)

/-- In any order, every step of the second list succeeds because one of the first does. -/
theorem mapM_of_order {Q : List γ → List δ → Prop} (hv : v = .order)
    (cover : ∀ b ∈ m, ∃ a ∈ l, Outcomes v same S (f a) (g b))
    (carry : ∀ {l' m'}, Forall₂ (fun a c => f a = .ok c) l l' →
      Forall₂ (fun b d => g b = .ok d) m m' → Q l' m') :
    Outcomes v same Q (l.mapM f) (m.mapM g) := by
  cases hl : l.mapM f with
  | error e => exact .refused hv e _
  | ok l' =>
    have hl' := mapM_eq_ok_iff.1 hl
    obtain ⟨m', hm, -⟩ := exists_mapM (f := g) (R := Eq) (Q := fun _ _ => True)
      (List.forall₂_same.2 fun b (_ : b ∈ m) => rfl) fun {b _} hb heq => by
        subst heq
        obtain ⟨a, ha, hab⟩ := cover b hb
        obtain ⟨c, -, hac⟩ := Ordered.exists_mem_of_forall₂ hl' ha
        obtain ⟨d, hd, -⟩ := hab.exists_ok hac
        exact ⟨d, hd, trivial⟩
    rw [hm]
    exact .ok (carry hl' (mapM_eq_ok_iff.1 hm))

theorem carry_ok ⦃a : α⦄ ⦃b : β⦄ ⦃c : γ⦄ ⦃d : δ⦄ (h : Outcomes v same S (f a) (g b))
    (hc : f a = .ok c) (hd : g b = .ok d) : S c d := by
  rw [hc, hd] at h
  exact h.of_ok

/-- **In any order**, where that may differ: the second list is read if the first one is. -/
theorem lists (h : v.Lists (fun a b => Outcomes v same S (f a) (g b)) l m) :
    Outcomes v same (v.Lists S) (l.mapM f) (m.mapM g) := by
  by_cases hv : v = .order
  · exact mapM_of_order hv h.cover.2 fun hl hm => h.carry carry_ok hl hm
  · cases v with
    | order => exact absurd rfl hv
    | nothing | literals => exact mapM h

/-- The same for sets. -/
theorem sets (h : v.Sets (fun a b => Outcomes v same S (f a) (g b)) l m) :
    Outcomes v same (v.Sets S) (l.mapM f) (m.mapM g) := by
  by_cases hv : v = .order
  · exact mapM_of_order hv h.cover.2 fun hl hm => h.carry carry_ok hl hm
  · cases v with
    | order => exact absurd rfl hv
    | nothing | literals => exact mapM h

end Lists

end Outcomes

end Metalanguage
