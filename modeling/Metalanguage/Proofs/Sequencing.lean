import Mathlib.Data.List.Forall2

/-!
# Proofs/Sequencing — going through a list with steps that can fail

A pass over a list succeeds when each step does: a fold keeps what each step keeps
(`foldlM_preserves`), and a map takes each entry to what its step returns (`mapM_eq_ok_iff`,
`exists_mapM`).
-/

namespace Metalanguage

/-- What follows a step that succeeds goes on with its result. -/
theorem ok_bind {α β ε : Type} (a : α) (f : α → Except ε β) : (Except.ok a >>= f) = f a := rfl

/-- Two steps succeed when the first does, and the second on what it returns. -/
theorem bind_eq_ok_iff {α β ε : Type} {x : Except ε α} {f : α → Except ε β} {b : β} :
    x >>= f = .ok b ↔ ∃ a, x = .ok a ∧ f a = .ok b := by
  cases x with
  | error e => exact ⟨nofun, fun ⟨_, h, _⟩ => nomatch h⟩
  | ok a => exact ⟨fun h => ⟨a, rfl, h⟩, fun ⟨_, h, hb⟩ => by cases h; exact hb⟩

/-- What each step of a fold keeps is kept by the fold. -/
theorem foldlM_preserves {α β ε : Type} {f : β → α → Except ε β} {P : β → Prop}
    (hf : ∀ {b a b'}, P b → f b a = .ok b' → P b') : ∀ {l : List α} {b b' : β}, P b →
      l.foldlM f b = .ok b' → P b'
  | [], _, _, hb, h => by cases h; exact hb
  | a :: l, b, b', hb, h => by
    rw [List.foldlM_cons] at h
    cases hfa : f b a with
    | error e => rw [hfa] at h; cases h
    | ok c => rw [hfa] at h; exact foldlM_preserves hf (hf hb hfa) h

/-- **A map succeeds** when each step does. -/
theorem mapM_eq_ok_iff {α β ε : Type} {f : α → Except ε β} :
    ∀ {l : List α} {l' : List β},
      l.mapM f = .ok l' ↔ List.Forall₂ (fun a b => f a = .ok b) l l'
  | [], l' => by
    rw [List.mapM_nil, List.forall₂_nil_left_iff]
    exact ⟨fun h => by cases h; rfl, fun h => by rw [h]; rfl⟩
  | a :: l, l' => by
    rw [List.mapM_cons, List.forall₂_cons_left_iff]
    cases ha : f a with
    | error e =>
      refine ⟨nofun, ?_⟩
      rintro ⟨b, m, hb, -⟩
      cases hb
    | ok b =>
      cases hl : l.mapM f with
      | error e =>
        refine ⟨nofun, ?_⟩
        rintro ⟨c, m, -, hm, -⟩
        rw [mapM_eq_ok_iff.2 hm] at hl
        cases hl
      | ok m =>
        constructor
        · intro h
          cases h
          exact ⟨b, m, rfl, mapM_eq_ok_iff.1 hl, rfl⟩
        · rintro ⟨c, m', hc, hm, rfl⟩
          cases hc
          rw [mapM_eq_ok_iff.2 hm] at hl
          cases hl
          rfl

theorem ne_nil_of_mapM {α β ε : Type} {f : α → Except ε β} {l : List α} {m : List β}
    (h : l.mapM f = .ok m) (hl : l ≠ []) : m ≠ [] := by
  rintro rfl
  exact hl (List.forall₂_nil_right_iff.1 (mapM_eq_ok_iff.1 h))

/-- What a map returns is returned by some step. -/
theorem exists_of_mapM {α β ε : Type} {f : α → Except ε β} {l : List α} {m : List β}
    (h : l.mapM f = .ok m) {b : β} (hb : b ∈ m) : ∃ a ∈ l, f a = .ok b := by
  have hall := mapM_eq_ok_iff.1 h
  clear h
  induction hall with
  | nil => cases hb
  | cons hac _ ih =>
    rcases List.mem_cons.1 hb with rfl | hb
    · exact ⟨_, List.mem_cons_self, hac⟩
    · obtain ⟨a, ha, hab⟩ := ih hb
      exact ⟨a, List.mem_cons_of_mem _ ha, hab⟩

/-- What each step can return, all that the map returns is. -/
theorem forall_of_mapM {α β ε : Type} {f : α → Except ε β} {P : β → Prop}
    (hf : ∀ {a b}, f a = .ok b → P b) {l : List α} {m : List β} (h : l.mapM f = .ok m) :
    ∀ b ∈ m, P b := fun _ hb => by
  obtain ⟨_, -, hab⟩ := exists_of_mapM h hb
  exact hf hab

/-- **A map of related entries** succeeds where each step does, and relates what the steps return.
-/
theorem exists_mapM {α β γ ε : Type} {f : α → Except ε γ} {R : α → β → Prop} {Q : β → γ → Prop}
    {l : List α} {m : List β} (h : List.Forall₂ R l m)
    (hf : ∀ {a b}, b ∈ m → R a b → ∃ c, f a = .ok c ∧ Q b c) :
    ∃ k, l.mapM f = .ok k ∧ List.Forall₂ Q m k := by
  suffices hk : ∃ k, List.Forall₂ (fun a c => f a = .ok c) l k ∧ List.Forall₂ Q m k by
    obtain ⟨k, hl, hm⟩ := hk
    exact ⟨k, mapM_eq_ok_iff.2 hl, hm⟩
  induction h with
  | nil => exact ⟨[], .nil, .nil⟩
  | cons hab _ ih =>
    obtain ⟨c, hc, hbc⟩ := hf List.mem_cons_self hab
    obtain ⟨k, hl, hm⟩ := ih fun hb => hf (List.mem_cons_of_mem _ hb)
    exact ⟨c :: k, .cons hc hl, .cons hbc hm⟩

/-- Steps that do the same do the same to lists. -/
theorem mapM_eq_of_forall₂ {α β γ ε : Type} {f : α → Except ε γ} {g : β → Except ε γ} {l : List α}
    {m : List β} (h : List.Forall₂ (fun a b => f a = g b) l m) : l.mapM f = m.mapM g := by
  induction h with
  | nil => rfl
  | cons hab _ ih => rw [List.mapM_cons, List.mapM_cons, hab, ih]

/-- A step for each entry, each of which renames the result of another step. -/
theorem mapM_eq_map_of_forall₂ {m : Type → Type} [Monad m] [LawfulMonad m] {α β γ δ : Type}
    {f : α → m γ} {g : β → m δ} {k : δ → γ} {l : List α} {l' : List β}
    (h : List.Forall₂ (fun b a => f a = k <$> g b) l' l) : l.mapM f = List.map k <$> l'.mapM g := by
  induction h with
  | nil => simp
  | cons hab _ ih => simp [hab, ih]

/-- **Steps that commute with renamings** of what they take and return do so on lists. -/
theorem mapM_map_of_comm {m : Type → Type} [Monad m] [LawfulMonad m] {α α' β β' : Type}
    {k : α → m β} {k' : α' → m β'} {f : α → α'} {g : β → β'} (h : ∀ a, k' (f a) = g <$> k a) :
    ∀ l : List α, (l.map f).mapM k' = List.map g <$> l.mapM k
  | [] => by simp
  | a :: l => by
    rw [List.map_cons, List.mapM_cons, List.mapM_cons, h, mapM_map_of_comm h l]
    simp

/-- Lists that are put together from related entries are related. -/
theorem forall₂_flatMap {A B X Y : Type} {R : A → B → Prop} {P : X → Y → Prop} {f : A → List X}
    {g : B → List Y} {l : List A} {m : List B} (h : List.Forall₂ R l m)
    (hfg : ∀ {a b}, a ∈ l → b ∈ m → R a b → List.Forall₂ P (f a) (g b)) :
    List.Forall₂ P (l.flatMap f) (m.flatMap g) := by
  induction h with
  | nil => exact .nil
  | cons hab _ ih =>
    rw [List.flatMap_cons, List.flatMap_cons]
    refine List.rel_append (hfg List.mem_cons_self List.mem_cons_self hab) (ih fun ha hb => ?_)
    exact hfg (List.mem_cons_of_mem _ ha) (List.mem_cons_of_mem _ hb)

/-- Related entries have the same numbers. -/
theorem forall₂_zipIdx {A B : Type} {R : A → B → Prop} {l : List A} {m : List B}
    (h : List.Forall₂ R l m) :
    ∀ i : ℕ, List.Forall₂ (fun x y => R x.1 y.1 ∧ x.2 = y.2) (l.zipIdx i) (m.zipIdx i) := by
  induction h with
  | nil => exact fun _ => .nil
  | cons hab _ ih => exact fun i => .cons ⟨hab, rfl⟩ (ih (i + 1))

/-- What is picked out of a list comes from the entries that hold something. -/
theorem forall₂_filterMap {A B : Type} (f : A → Option B) : ∀ l : List A,
    List.Forall₂ (fun a b => f a = some b) (l.filter fun a => (f a).isSome) (l.filterMap f)
  | [] => .nil
  | a :: l => by
    cases ha : f a with
    | none => simpa [ha] using forall₂_filterMap f l
    | some b => simpa [ha] using forall₂_filterMap f l

/-- Where all entries hold something it is picked out one by one. -/
theorem forall₂_filterMap_of_isSome {A B : Type} {f : A → Option B} {l : List A}
    (h : ∀ a ∈ l, (f a).isSome) : List.Forall₂ (fun a b => f a = some b) l (l.filterMap f) := by
  have hall := forall₂_filterMap f l
  rwa [List.filter_eq_self.2 h] at hall

/-- What is picked out of all entries is what they hold. -/
theorem eq_map_of_mapM {α β : Type} {f : α → Option β} {g : β → α}
    (hf : ∀ {a b}, f a = some b → a = g b) : ∀ {l : List α} {m : List β},
      l.mapM f = some m → l = m.map g
  | [], _, h => by cases h; rfl
  | a :: l, m, h => by
    rw [List.mapM_cons] at h
    cases ha : f a with
    | none => rw [ha] at h; cases h
    | some b =>
      cases hl : l.mapM f with
      | none => rw [ha, hl] at h; cases h
      | some bs =>
        rw [ha, hl] at h
        cases h
        rw [List.map_cons, hf ha, eq_map_of_mapM hf hl]

theorem mapM_map_eq_some {α β : Type} {f : α → Option β} {g : β → α} (hf : ∀ b, f (g b) = some b) :
    ∀ m : List β, (m.map g).mapM f = some m
  | [] => rfl
  | b :: m => by
    rw [List.map_cons, List.mapM_cons, hf, mapM_map_eq_some hf m]
    rfl

end Metalanguage
