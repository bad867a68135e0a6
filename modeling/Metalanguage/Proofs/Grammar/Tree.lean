import Metalanguage.Grammar.Tree
import Metalanguage.Proofs.Grammar.Reading

/-!
# Proofs/Grammar/Tree — values and rules are read side by side

The annotated grammar reads what the grammar reads, with the same value (`read_eq_annotated`), so a
text has rules exactly where it has a value (`exists_trees?_of_read`, `trees?_eq_none`).
`Bears text g R` says that the value and the rules that `g` reads at any place of `text` are related
by `R`; there is one lemma for each way to combine grammars, and named rules know the stretch of the
text that they stand for (`Bears.named`).
-/

namespace Metalanguage

open List (Forall₂)

/-! ## Stretches of a text -/

/-- To drop the bytes of a piece leaves what is behind it ... -/
theorem dropBytes_append (before cs : List Char) :
    dropBytes (before ++ cs) (byteLength before) = cs := by
  induction before with
  | nil => cases cs <;> rfl
  | cons c before ih =>
    have hpos := c.utf8Size_pos
    rw [List.cons_append, dropBytes, byteLength_cons, if_neg (by omega), Nat.add_sub_cancel_left, ih]

/-- ... and to take them leaves the piece. -/
theorem takeBytes_append (cs after : List Char) : takeBytes (cs ++ after) (byteLength cs) = cs := by
  induction cs with
  | nil => cases after <;> rfl
  | cons c cs ih =>
    have hpos := c.utf8Size_pos
    rw [List.cons_append, takeBytes, byteLength_cons, if_neg (by omega), Nat.add_sub_cancel_left, ih]

/-- **The stretch from a piece of a text** is the piece. -/
theorem ByteRange.of_append (before cs after : List Char) :
    (⟨byteLength before, byteLength before + byteLength cs⟩ : ByteRange).of
      (before ++ cs ++ after) = cs := by
  rw [ByteRange.of, List.append_assoc, dropBytes_append, Nat.add_sub_cancel_left, takeBytes_append]

namespace Grammar

/-! ## The same reading -/

variable {α β : Type}

/-- Rounds whose values are renamed. -/
theorem rounds_map {body : Cursor → Option (α × Cursor)} {body' : Cursor → Option (β × Cursor)}
    {f : β → α} (h : ∀ c, body c = (body' c).map (Prod.map f id)) :
    ∀ (bound : List Char) (c : Cursor),
      rounds body bound c = Prod.map (List.map f) id (rounds body' bound c)
  | [], c => rfl
  | _ :: bound, c => by
    rw [rounds, rounds, h]
    cases body' c.skipBlanks with
    | none => rfl
    | some result =>
      simp only [Option.map_some, Prod.map, id, rounds_map h bound, List.map_cons]

/-- A repetition whose values are renamed. -/
theorem repeated_map {body : Cursor → Option (α × Cursor)} {body' : Cursor → Option (β × Cursor)}
    {f : β → α} (h : ∀ c, body c = (body' c).map (Prod.map f id)) (c : Cursor) :
    repeated body c = Prod.map (List.map f) id (repeated body' c) := by
  rw [repeated, repeated, h]
  cases body' c with
  | none => rfl
  | some result =>
    simp only [Option.map_some, Prod.map, id, rounds_map h, List.map_cons]

/-- What holds no rules is read the same. -/
theorem read_without_rules (g : Grammar α) (c : Cursor) :
    read g c = (read (.map (fun x => (x, ([] : List RuleTree))) g) c).map (Prod.map (·.1) id) := by
  rw [read_map, Option.map_map]
  exact Option.map_id'.symm

/-- **The annotated grammar reads the same**, with the rules beside the value. -/
theorem read_eq_annotated : ∀ {α : Type} (g : Grammar α) (c : Cursor),
    read g c = (read g.annotated c).map (Prod.map (·.1) id)
  | _, .empty, c => read_without_rules .empty c
  | _, .mark m, c => read_without_rules (.mark m) c
  | _, .script, c => read_without_rules .script c
  | _, .literal, c => read_without_rules .literal c
  | _, .finish, c => read_without_rules .finish c
  | _, .seq first second, c => by
    rw [annotated, read_map, read_seq, read_seq, read_eq_annotated first]
    cases read first.annotated c with
    | none => rfl
    | some result =>
      simp only [Option.map_some, Option.bind_some, Prod.map, id, read_eq_annotated second,
        Option.map_map]
      rfl
  | _, .either first second, c => by
    rw [annotated, read_either, read_either, read_eq_annotated first, read_eq_annotated second,
      Option.map_or]
  | _, .many body, c => by
    rw [annotated, read_map, read_many, read_many, repeated_map (read_eq_annotated body)]
    rfl
  | _, .named rule body, c => by
    rw [annotated, read_map, read_placed, read_named, read_named, read_eq_annotated body,
      Option.map_map, Option.map_map]
    rfl
  | _, .placed body, c => by
    rw [annotated, read_map, read_placed, read_placed, read_eq_annotated body,
      Option.map_map, Option.map_map, Option.map_map]
    rfl
  | _, .map f body, c => by
    rw [annotated, read_map, read_map, read_eq_annotated body, Option.map_map, Option.map_map]
    rfl

/-! ## Values and their rules -/

/-- **The value and the rules are related** wherever the text is read. -/
def Bears (text : List Char) (g : Grammar α) (R : α → List RuleTree → Prop) : Prop :=
  ∀ ⦃before cs after : List Char⦄ ⦃x : α⦄ ⦃ts : List RuleTree⦄, text = before ++ cs ++ after →
    Spells g.annotated (byteLength before) cs (x, ts) → R x ts

/-- A single rule. -/
def One (P : α → RuleTree → Prop) (x : α) (ts : List RuleTree) : Prop := ∃ t, ts = [t] ∧ P x t

/-- The rules of each value, one after the other. -/
def Each (R : α → List RuleTree → Prop) (xs : List α) (ts : List RuleTree) : Prop :=
  ∃ tss, Forall₂ R xs tss ∧ ts = tss.flatten

/-- A rule around other ones. -/
structure Rooted (text : List Char) (rule : Rule) (g : Grammar α) (R : α → List RuleTree → Prop)
    (x : α) (t : RuleTree) : Prop where
  rule_eq : t.rule = rule
  /-- What the rule stands for is what its own grammar spells. -/
  spells : ∃ o, Spells g.annotated o (t.range.of text) (x, t.inner)
  inner : R x t.inner

/-- Where each value has one rule, values and rules go side by side. -/
theorem each_one {P : α → RuleTree → Prop} {xs : List α} {ts : List RuleTree}
    (h : Each (One P) xs ts) : Forall₂ P xs ts := by
  obtain ⟨tss, hall, rfl⟩ := h
  induction hall with
  | nil => exact .nil
  | cons hx _ ih =>
    obtain ⟨t, rfl, ht⟩ := hx
    exact .cons ht ih

theorem One.imp {P Q : α → RuleTree → Prop} (h : ∀ {x t}, P x t → Q x t) {x : α}
    {ts : List RuleTree} (hone : One P x ts) : One Q x ts := by
  obtain ⟨t, rfl, ht⟩ := hone
  exact ⟨t, rfl, h ht⟩

theorem One.map {P : α → RuleTree → Prop} {Q : β → RuleTree → Prop} {φ : α → β}
    (h : ∀ {x t}, P x t → Q (φ x) t) {x : α} {ts : List RuleTree} (hone : One P x ts) :
    One Q (φ x) ts := by
  obtain ⟨t, rfl, ht⟩ := hone
  exact ⟨t, rfl, h ht⟩

section Parts

variable {text : List Char} {g : Grammar α} {g' : Grammar β} {R : α → List RuleTree → Prop}
  {R' : β → List RuleTree → Prop}

theorem Bears.imp {S : α → List RuleTree → Prop} (h : Bears text g R)
    (hRS : ∀ {x ts}, R x ts → S x ts) : Bears text g S :=
  fun _ _ _ _ _ htext hs => hRS (h htext hs)

/-- What is no named rule and holds none. -/
theorem bears_nothing (h : g.annotated = .map (fun x => (x, [])) g) :
    Bears text g fun _ ts => ts = [] := by
  rintro _ _ _ x ts - hs
  rw [h] at hs
  obtain ⟨_, -, heq⟩ := hs
  exact (congrArg Prod.snd heq).symm

/-- A mark is no rule of its own. -/
theorem bears_mark (m : Char) : Bears text (.mark m) fun _ ts => ts = [] := bears_nothing rfl

theorem Bears.map (h : Bears text g R) (φ : α → β) (hR : ∀ {x ts}, R x ts → R' (φ x) ts) :
    Bears text (.map φ g) R' := by
  rintro _ _ _ _ _ htext ⟨⟨x, ts⟩, hs, heq⟩
  cases heq
  exact hR (h htext hs)

/-- **In a row**: the rules of the first text stand before those of the second. -/
theorem Bears.seq (h : Bears text g R) (h' : Bears text g' R') :
    Bears text (.seq g g') fun p ts => ∃ us vs, ts = us ++ vs ∧ R p.1 us ∧ R' p.2 vs := by
  rintro before _ after _ _ htext ⟨⟨⟨x, us⟩, y, vs⟩, ⟨xs, blanks, ys, rfl, -, hx, hy⟩, heq⟩
  cases heq
  refine ⟨us, vs, rfl, @h before xs (blanks ++ ys ++ after) _ _ (by simp [htext]) hx, ?_⟩
  refine @h' (before ++ (xs ++ blanks)) ys after _ _ (by simp [htext]) ?_
  rwa [byteLength_append before]

/-- Either alternative may be the one that is read. -/
theorem Bears.either {second : Grammar α} (h : Bears text g R) (h' : Bears text second R) :
    Bears text (.either g second) R
  | _, _, _, _, _, htext, .inl hs => h htext hs
  | _, _, _, _, _, htext, .inr hs => h' htext hs

/-- The rounds of a repetition bear one after the other. -/
theorem each_of_rounds (h : Bears text g R) {o : ℕ} {cs : List Char}
    {l : List (α × List RuleTree)} (hl : Rounds (Spells g.annotated) o cs l) :
    ∀ {before after : List Char}, text = before ++ cs ++ after → o = byteLength before →
      Forall₂ R (l.map (·.1)) (l.map (·.2)) := by
  -- each round stands further on in the text, so the induction is over all places
  induction hl with
  | nil => exact fun _ _ => .nil
  | @cons _ xs blanks ys _ _ first _ _ ih =>
    rintro before after htext rfl
    refine .cons (@h before xs (blanks ++ ys ++ after) _ _ (by simp [htext]) first) ?_
    exact @ih (before ++ (xs ++ blanks)) after (by simp [htext])
      (byteLength_append before _).symm

/-- **One after the other**: the rules of each round stand in a row. -/
theorem Bears.many (h : Bears text g R) : Bears text (.many g) (Each R) := by
  rintro before cs after _ _ htext ⟨l, hl, heq⟩
  cases heq
  exact ⟨l.map (·.2), each_of_rounds h hl htext rfl, List.flatMap_def⟩

/-- **A named rule that tells its place** has it twice, in the rule and in the value, and they are
the same. -/
theorem Bears.placed_named (h : Bears text g R) (rule : Rule) (φ : ByteRange × α → β)
    {P : β → RuleTree → Prop} (hP : ∀ {x t}, Rooted text rule g R x t → P (φ (t.range, x)) t) :
    Bears text (.map φ (.placed (.named rule g))) (One P) := by
  rintro before cs after _ _ htext
    ⟨_, ⟨⟨_, x, _⟩, ⟨rfl, ⟨_, _, inner⟩, ⟨rfl, hs⟩, heq⟩, heq'⟩, heq''⟩
  cases heq
  cases heq'
  cases heq''
  refine ⟨_, rfl, @hP x (.node rule _ inner) ⟨rfl, ⟨byteLength before, ?_⟩, h htext hs⟩⟩
  rw [htext, RuleTree.range, ByteRange.of_append]
  exact hs

/-- **A named rule** stands around the rules of its body. -/
theorem Bears.named (h : Bears text g R) (rule : Rule) {P : α → RuleTree → Prop}
    (hP : ∀ {x t}, Rooted text rule g R x t → P x t) : Bears text (.named rule g) (One P) := by
  rintro before cs after x ts htext hs
  refine h.placed_named rule Prod.snd hP htext ?_
  exact ⟨((⟨byteLength before, byteLength before + byteLength cs⟩, x), ts),
    ⟨(_, x, ts), ⟨rfl, hs⟩, rfl⟩, rfl⟩

/-- A named rule whose value is put together from those of its body. -/
theorem Bears.named_map (h : Bears text g R) (rule : Rule) (φ : α → β) {P : β → RuleTree → Prop}
    (hP : ∀ {x t}, t.rule = rule → R x t.inner → P (φ x) t) :
    Bears text (.named rule (.map φ g)) (One P) := by
  have hbody : Bears text (.map φ g) fun y ts => ∃ x, φ x = y ∧ R x ts :=
    h.map φ fun hx => ⟨_, rfl, hx⟩
  refine hbody.named rule fun hroot => ?_
  obtain ⟨x, rfl, hx⟩ := hroot.inner
  exact hP hroot.rule_eq hx

/-- The rule of a script stands for its characters. -/
theorem Rooted.script_eq {rule : Rule} {R : String → List RuleTree → Prop} {s : String}
    {t : RuleTree} (h : Rooted text rule .script R s t) : String.ofList (t.range.of text) = s := by
  obtain ⟨_, _, ⟨-, -, hs⟩, heq⟩ := h.spells
  obtain ⟨rfl, -⟩ := Prod.mk.inj heq
  exact hs.symm

/-- The rule of a literal stands for the body between its brackets. -/
theorem Rooted.exists_body {rule : Rule} {R : Literal → List RuleTree → Prop} {l : Literal}
    {t : RuleTree} (h : Rooted text rule .literal R l t) :
    ∃ body, t.range.of text = '<' :: (body ++ ['>']) ∧ l = ⟨String.ofList body⟩ := by
  obtain ⟨_, _, ⟨body, -, hbody, hl⟩, heq⟩ := h.spells
  obtain ⟨rfl, -⟩ := Prod.mk.inj heq
  exact ⟨body, hbody, hl⟩

/-! ## Derived ways to combine -/

/-- Marks leave no rule behind. -/
theorem Bears.markRight (h : Bears text g R) (m : Char) :
    Bears text (seqRight (.mark m) g) R := by
  refine ((bears_mark m).seq h).map _ fun hx => ?_
  obtain ⟨_, _, rfl, rfl, hx⟩ := hx
  exact hx

theorem Bears.between (h : Bears text g R) (opening closing : Char) :
    Bears text (.between opening closing g) R := by
  refine Bears.markRight ((h.seq (bears_mark closing)).map _ fun hx => ?_) opening
  obtain ⟨_, _, rfl, hx, rfl⟩ := hx
  rwa [List.append_nil]

/-- What is left out leaves no rule. -/
theorem Bears.optional {P : α → RuleTree → Prop} (h : Bears text g (One P)) :
    Bears text (Grammar.optional g) fun x? ts => Forall₂ P x?.toList ts := by
  refine .either (h.map _ fun hx => ?_) ((bears_nothing rfl).map _ fun hts => ?_)
  · obtain ⟨t, rfl, ht⟩ := hx
    exact .cons ht .nil
  · rw [hts]
    exact .nil

/-- Rounds of one rule each. -/
theorem Bears.each {P : α → RuleTree → Prop} (h : Bears text g (One P)) :
    Bears text (.many g) (Forall₂ P) :=
  h.many.imp each_one

theorem Bears.some1 {P : α → RuleTree → Prop} (h : Bears text g (One P)) :
    Bears text (Grammar.some1 g) (Forall₂ P) := by
  refine (h.seq h.each).map _ fun hx => ?_
  obtain ⟨_, _, rfl, ⟨t, rfl, ht⟩, hl⟩ := hx
  exact .cons ht hl

/-- Entries of one rule each: separators have none. -/
theorem Bears.separated {P : α → RuleTree → Prop} (h : Bears text g (One P)) (separator : Char) :
    Bears text (Grammar.separated separator g) (Forall₂ P) := by
  refine (h.seq (h.markRight separator).each).map _ fun hx => ?_
  obtain ⟨_, _, rfl, ⟨t, rfl, ht⟩, hl⟩ := hx
  exact .cons ht hl

end Parts

/-! ## Whole texts -/

/-- **A text has rules where it has a value**, and they are related. -/
theorem exists_trees?_of_read {text : List Char} {g : Grammar α} {R : α → List RuleTree → Prop}
    (h : Bears text g R) {x : α} {d : Cursor} (hread : read g (.start text) = some (x, d)) :
    ∃ ts, g.trees? text = some ts ∧ R x ts := by
  rw [read_eq_annotated, Option.map_eq_some_iff] at hread
  obtain ⟨⟨⟨x', ts⟩, e⟩, hannotated, heq⟩ := hread
  cases heq
  obtain ⟨cs, hpass, hs⟩ := spells_of_read _ hannotated
  exact ⟨ts, by rw [trees?, hannotated]; rfl, @h [] cs e.rest _ _ hpass.rest hs⟩

/-- A text without a value has no rules. -/
theorem trees?_eq_none {text : List Char} {g : Grammar α} (h : read g (.start text) = none) :
    g.trees? text = none := by
  rw [read_eq_annotated, Option.map_eq_none_iff] at h
  rw [trees?, h]
  rfl

end Grammar

end Metalanguage
