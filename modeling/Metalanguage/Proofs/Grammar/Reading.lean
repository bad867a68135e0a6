import Mathlib.Data.Set.Insert
import Metalanguage.Proofs.Grammar.Spelling

/-!
# Proofs/Grammar/Reading — when a grammar reads what it spells

Choices are taken for good and repetitions take as much as they can, so what is spelled need not be
read. It is where the text behind it does not tempt the grammar to go on: `Reads g fits` says that
`g` reads whatever it spells before a text that `fits`. A grammar that ends on a mark does so before
any text, and takes exactly what it spells (`ReadsExactly`). Each way to combine grammars keeps
these properties under a condition on what its parts begin with (`Opens`), or on how many brackets
they open (`HasDepth`), which tells the alternatives of a choice apart.
-/

namespace Metalanguage

namespace Grammar

variable {α β : Type}

/-- **What is spelled is read**, before a text that fits, up to blanks in front and behind. -/
def Reads (g : Grammar α) (fits : List Char → Prop) : Prop :=
  ∀ ⦃o : ℕ⦄ ⦃cs : List Char⦄ ⦃x : α⦄ ⦃rest : List Char⦄, Spells g o cs x → fits rest →
    ∃ d, read g (Cursor.skipBlanks ⟨o, cs ++ rest⟩) = some (x, d) ∧
      d.skipBlanks = Cursor.skipBlanks ⟨o + byteLength cs, rest⟩

/-- What is spelled is read before any text that fits, and is all that is read. -/
def ReadsExactly (g : Grammar α) (fits : List Char → Prop) : Prop :=
  ∀ ⦃o : ℕ⦄ ⦃cs : List Char⦄ ⦃x : α⦄ ⦃rest : List Char⦄, Spells g o cs x → fits rest →
    (∀ c ∈ cs.head?, isBlank c = false) ∧ cs ≠ [] ∧
      read g ⟨o, cs ++ rest⟩ = some (x, ⟨o + byteLength cs, rest⟩)

/-- What is spelled begins, behind blanks, with one of these characters. -/
def Opens (g : Grammar α) (marks : Set Char) : Prop :=
  ∀ ⦃o : ℕ⦄ ⦃cs : List Char⦄ ⦃x : α⦄, Spells g o cs x → ∃ c ∈ marks, lead cs = some c

/-- The text does not go on, behind blanks, with one of these characters. -/
def Stops (marks : Set Char) (rest : List Char) : Prop := ∀ c ∈ lead rest, c ∉ marks

/-- A text that always fits. -/
abbrev Any : List Char → Prop := fun _ => True

/-- Before fewer texts less has to be shown. -/
theorem Reads.mono {g : Grammar α} {fits fits' : List Char → Prop} (h : Reads g fits)
    (hfits : ∀ {rest}, fits' rest → fits rest) : Reads g fits' :=
  fun _ _ _ _ hs hrest => h hs (hfits hrest)

/-- What takes exactly its own text reads it. -/
theorem ReadsExactly.reads {g : Grammar α} {fits : List Char → Prop} (h : ReadsExactly g fits) :
    Reads g fits := by
  intro o cs x rest hs hrest
  obtain ⟨hhead, hne, hread⟩ := h hs hrest
  cases cs with
  | nil => exact absurd rfl hne
  | cons c cs =>
    refine ⟨_, ?_, rfl⟩
    rw [List.cons_append, Cursor.skipBlanks_cons (hhead c rfl)]
    exact hread

/-- **A text is read in one way**, up to where it stops. -/
theorem Reads.unique {g : Grammar α} {fits : List Char → Prop} (h : Reads g fits) {o : ℕ}
    {cs cs' rest rest' : List Char} {x x' : α} (hs : Spells g o cs x) (hs' : Spells g o cs' x')
    (hrest : fits rest) (hrest' : fits rest') (heq : cs ++ rest = cs' ++ rest') :
    x = x' ∧ Cursor.skipBlanks ⟨o + byteLength cs, rest⟩ =
      Cursor.skipBlanks ⟨o + byteLength cs', rest'⟩ := by
  obtain ⟨d, hd, hskip⟩ := h hs hrest
  obtain ⟨d', hd', hskip'⟩ := h hs' hrest'
  rw [heq, hd', Option.some.injEq, Prod.mk.injEq] at hd
  obtain ⟨rfl, rfl⟩ := hd
  exact ⟨rfl, hskip.symm.trans hskip'⟩

/-! ## Beginnings -/

/-- A mark begins with itself ... -/
theorem Opens.mark {m : Char} (hm : isBlank m = false) : Opens (.mark m) {m} := by
  rintro o cs x rfl
  exact ⟨m, rfl, lead_cons hm []⟩

/-- ... and a row with what its first text begins with. -/
theorem Opens.seq {first : Grammar α} {marks : Set Char} (h : Opens first marks)
    (second : Grammar β) : Opens (.seq first second) marks := by
  rintro o _ ⟨x, y⟩ ⟨xs, blanks, ys, rfl, -, hxs, -⟩
  obtain ⟨c, hc, hlead⟩ := h hxs
  exact ⟨c, hc, by rw [List.append_assoc, lead_append, hlead, Option.some_or]⟩

theorem Opens.map {g : Grammar α} {marks : Set Char} (h : Opens g marks) (f : α → β) :
    Opens (.map f g) marks := fun _ _ _ ⟨_, hs, _⟩ => h hs

theorem Opens.named {g : Grammar α} {marks : Set Char} (h : Opens g marks) (rule : Rule) :
    Opens (.named rule g) marks := fun _ _ _ hs => h hs

/-- A choice begins with either. -/
theorem Opens.either {g g' : Grammar α} {marks : Set Char} (h : Opens g marks)
    (h' : Opens g' marks) : Opens (.either g g') marks
  | _, _, _, .inl hs => h hs
  | _, _, _, .inr hs => h' hs

theorem Opens.seqRight {first : Grammar α} {marks : Set Char} (h : Opens first marks)
    (second : Grammar β) : Opens (.seqRight first second) marks := (h.seq second).map _

/-- What stands between marks begins with the opening one. -/
theorem Opens.between {opening : Char} (hm : isBlank opening = false) (closing : Char)
    (body : Grammar α) : Opens (.between opening closing body) {opening} :=
  (Opens.mark hm).seqRight _

theorem Opens.some1 {g : Grammar α} {marks : Set Char} (h : Opens g marks) :
    Opens (.some1 g) marks := (h.seq _).map _

/-- A repetition may be empty. -/
theorem Opens.many_seq {body : Grammar α} {second : Grammar β} {marks marks' : Set Char}
    (h : Opens body marks) (h' : Opens second marks') :
    Opens (.seq (.many body) second) (marks ∪ marks') := by
  rintro o _ ⟨l, y⟩ ⟨xs, blanks, ys, rfl, hblanks, hl, hys⟩
  rcases hl with _ | ⟨hxs, -, -⟩
  · obtain ⟨c, hc, hlead⟩ := h' hys
    exact ⟨c, .inr hc, by rw [List.nil_append, lead_blank_append hblanks, hlead]⟩
  · obtain ⟨c, hc, hlead⟩ := h hxs
    refine ⟨c, .inl hc, ?_⟩
    simp only [List.append_assoc]
    rw [lead_append, hlead, Option.some_or]

/-- A text that goes on differently is not read. -/
theorem Opens.read_eq_none {g : Grammar α} {marks : Set Char} (h : Opens g marks) {o : ℕ}
    {rest : List Char} (hrest : Stops marks rest) :
    read g (Cursor.skipBlanks ⟨o, rest⟩) = none := by
  cases hread : read g (Cursor.skipBlanks ⟨o, rest⟩) with
  | none => rfl
  | some result =>
    obtain ⟨cs, hpass, hs⟩ := spells_of_read g hread
    obtain ⟨c, hc, hlead⟩ := h hs
    refine absurd hc (hrest c ?_)
    rw [Option.mem_def, ← Cursor.lead_skipBlanks ⟨o, rest⟩, hpass.rest, lead_append, hlead,
      Option.some_or]

/-- The end of the text tempts nobody ... -/
theorem stops_nil (marks : Set Char) : Stops marks [] := fun _ hc => by cases hc

/-- ... and what another mark leads is not a beginning either. -/
theorem stops_append {marks : Set Char} {cs : List Char} {c : Char} (h : lead cs = some c)
    (hc : c ∉ marks) (rest : List Char) : Stops marks (cs ++ rest) := by
  intro d hd
  rw [lead_append, h, Option.some_or] at hd
  obtain rfl : c = d := by simpa using hd
  exact hc

/-- Blanks are skipped, so what matters is behind them. -/
theorem stops_blank_append {marks : Set Char} {blanks : List Char} (h : Blank blanks)
    {rest : List Char} : Stops marks (blanks ++ rest) ↔ Stops marks rest := by
  rw [Stops, Stops, lead_blank_append h]

theorem stops_blank_cons {marks : Set Char} {blanks : List Char} (h : Blank blanks) {c : Char}
    (hblank : isBlank c = false) (hc : c ∉ marks) (rest : List Char) :
    Stops marks (blanks ++ c :: rest) := by
  intro d hd
  rw [lead_blank_append h, lead_cons hblank] at hd
  obtain rfl : c = d := by simpa using hd
  exact hc

/-! ## Depth -/

/-- How many opening brackets stand before the first other character; a curly one counts for more of
the others than ever nest. -/
def depth : List Char → ℕ
  | [] => 0
  | c :: cs =>
    if isBlank c then depth cs else if c = '[' ∨ c = '(' then depth cs + 1
    else if c = '{' then 8 else 0

/-- The number of brackets that whatever is spelled opens is among these. -/
def HasDepth (g : Grammar α) (ks : Set ℕ) : Prop :=
  ∀ ⦃o : ℕ⦄ ⦃cs : List Char⦄ ⦃x : α⦄, Spells g o cs x → ∀ rest, depth (cs ++ rest) ∈ ks

/-- Blanks open no bracket. -/
theorem depth_blank_append {blanks : List Char} (h : Blank blanks) (cs : List Char) :
    depth (blanks ++ cs) = depth cs := by
  induction blanks with
  | nil => rfl
  | cons b blanks ih =>
    obtain ⟨hb, hblanks⟩ := List.forall_mem_cons.1 h
    rw [List.cons_append, depth, if_pos hb, ih hblanks]

theorem depth_skipBlanks (c : Cursor) : depth c.skipBlanks.rest = depth c.rest := by
  obtain ⟨blanks, hblanks, hrest, -⟩ := c.exists_skipBlanks
  rw [hrest, depth_blank_append hblanks]

section Depth

variable {g : Grammar α} {ks : Set ℕ} (h : HasDepth g ks)

include h

/-- A row opens as many brackets as its first text ... -/
theorem HasDepth.seq (second : Grammar β) : HasDepth (.seq g second) ks := by
  rintro o _ ⟨x, y⟩ ⟨xs, blanks, ys, rfl, -, hxs, -⟩ rest
  rw [List.append_assoc, List.append_assoc]
  exact h hxs _

theorem HasDepth.map (f : α → β) : HasDepth (.map f g) ks := fun _ _ _ ⟨_, hs, _⟩ => h hs

theorem HasDepth.named (rule : Rule) : HasDepth (.named rule g) ks := fun _ _ _ hs => h hs

theorem HasDepth.placed : HasDepth (.placed g) ks := fun _ _ _ hs => h hs.2

/-- ... and a choice as many as the alternative that is spelled. -/
theorem HasDepth.either {g' : Grammar α} {ks' : Set ℕ} (h' : HasDepth g' ks') :
    HasDepth (.either g g') (ks ∪ ks')
  | _, _, _, .inl hs, rest => .inl (h hs rest)
  | _, _, _, .inr hs, rest => .inr (h' hs rest)

/-- A list opens as many as its first entry. -/
theorem HasDepth.separated (separator : Char) : HasDepth (.separated separator g) ks :=
  (h.seq _).map _

/-- A text of another depth is not read. -/
theorem HasDepth.read_eq_none {o : ℕ} {rest : List Char} (hrest : depth rest ∉ ks) :
    read g (Cursor.skipBlanks ⟨o, rest⟩) = none := by
  cases hread : read g (Cursor.skipBlanks ⟨o, rest⟩) with
  | none => rfl
  | some result =>
    obtain ⟨cs, hpass, hs⟩ := spells_of_read g hread
    refine absurd ?_ hrest
    rw [← depth_skipBlanks ⟨o, rest⟩, hpass.rest]
    exact h hs _

end Depth

/-! ## Leaves -/

theorem ReadsExactly.mark {m : Char} (hm : isBlank m = false) : ReadsExactly (.mark m) Any := by
  rintro o cs x rest rfl -
  refine ⟨by simpa using hm, by simp, ?_⟩
  simp [read_mark, Cursor.mark?]

/-- No script character is a blank. -/
theorem isScriptChar_not_blank {c : Char} (h : Script.isScriptChar c = true) :
    isBlank c = false := by
  cases hc : isBlank c with
  | false => rfl
  | true =>
    simp only [isBlank, Bool.or_eq_true, beq_iff_eq] at hc
    rcases hc with ((rfl | rfl) | rfl) | rfl <;> exact absurd h (by decide)

/-- A script is read up to the first character of another sort. -/
theorem ReadsExactly.script :
    ReadsExactly .script (Stops {c | Script.isScriptChar c = true}) := by
  rintro o cs x rest ⟨hne, hcs, rfl⟩ hrest
  have hstop : ∀ c ∈ rest.head?, Script.isScriptChar c = false := by
    intro c hc
    cases hs : Script.isScriptChar c with
    | false => rfl
    | true =>
      cases rest with
      | nil => simp at hc
      | cons d rest =>
        obtain rfl : d = c := by simpa using hc
        exact absurd hs (hrest d (lead_cons (isScriptChar_not_blank hs) rest))
  refine ⟨fun c hc => isScriptChar_not_blank (hcs c (List.mem_of_mem_head? hc)), hne, ?_⟩
  have htake : (cs ++ rest).takeWhile Script.isScriptChar = cs := by
    rw [List.takeWhile_append_of_pos hcs]
    cases rest with
    | nil => simp
    | cons d rest => simp [hstop d rfl]
  have hdrop : (cs ++ rest).dropWhile Script.isScriptChar = rest := by
    rw [List.dropWhile_append_of_pos hcs]
    cases rest with
    | nil => simp
    | cons d rest => simp [hstop d rfl]
  rw [read_script, Cursor.script?, List.span_eq_takeWhile_dropWhile, htake, hdrop]
  cases cs with
  | nil => exact absurd rfl hne
  | cons c cs => rfl

/-- A literal is read up to the bracket that closes it. -/
theorem ReadsExactly.literal : ReadsExactly .literal Any := by
  rintro o _ x rest ⟨body, hbody, rfl, rfl⟩ -
  refine ⟨by simp [isBlank], by simp, ?_⟩
  simp only [List.cons_append, List.append_assoc, List.nil_append]
  rw [read_literal, Cursor.literal?, Literal.scan?_append hbody]
  simp [Literal.display]

/-! ## Sequences -/

/-- **In a row**: the first text is read if the second one, behind blanks, does not tempt it. -/
theorem Reads.seq {first : Grammar α} {second : Grammar β} {fits fits' : List Char → Prop}
    (h : Reads first fits) (h' : Reads second fits')
    (hnext : ∀ {o ys y rest blanks}, Spells second o ys y → fits' rest → Blank blanks →
      fits (blanks ++ (ys ++ rest))) : Reads (.seq first second) fits' := by
  rintro o _ ⟨x, y⟩ rest ⟨xs, blanks, ys, rfl, hblanks, hxs, hys⟩ hrest
  obtain ⟨d, hd, hskip⟩ := h hxs (hnext hys hrest hblanks)
  obtain ⟨e, he, hend⟩ := h' hys hrest
  rw [Cursor.skipBlanks_append hblanks] at hskip
  rw [byteLength_append, ← Nat.add_assoc] at he
  refine ⟨e, ?_, ?_⟩
  · rw [read_seq, List.append_assoc, List.append_assoc, hd]
    simp only [Option.bind_some, hskip, he, Option.map_some]
  · rw [hend]
    simp only [byteLength_append, Nat.add_assoc]

/-- Where the second text is not read behind the first one, the sequence is not read. -/
theorem read_seq_eq_none {first : Grammar α} {second : Grammar β} {fits : List Char → Prop}
    (h : Reads first fits) {o : ℕ} {xs : List Char} {x : α} {rest : List Char}
    (hxs : Spells first o xs x) (hrest : fits rest)
    (hnone : read second (Cursor.skipBlanks ⟨o + byteLength xs, rest⟩) = none) :
    read (.seq first second) (Cursor.skipBlanks ⟨o, xs ++ rest⟩) = none := by
  obtain ⟨d, hd, hskip⟩ := h hxs hrest
  rw [read_seq, hd]
  simp only [Option.bind_some, hskip, hnone, Option.map_none]

theorem Reads.map {g : Grammar α} {fits : List Char → Prop} (h : Reads g fits) (f : α → β) :
    Reads (.map f g) fits := by
  rintro o cs _ rest ⟨x, hx, rfl⟩ hrest
  obtain ⟨d, hd, hskip⟩ := h hx hrest
  exact ⟨d, by rw [read_map, hd, Option.map_some], hskip⟩

theorem Reads.named {g : Grammar α} {fits : List Char → Prop} (h : Reads g fits) (rule : Rule) :
    Reads (.named rule g) fits := fun _ _ _ _ hs hrest => h hs hrest

theorem ReadsExactly.named {g : Grammar α} {fits : List Char → Prop} (h : ReadsExactly g fits)
    (rule : Rule) : ReadsExactly (.named rule g) fits := fun _ _ _ _ hs hrest => h hs hrest

theorem ReadsExactly.placed {g : Grammar α} {fits : List Char → Prop} (h : ReadsExactly g fits) :
    ReadsExactly (.placed g) fits := by
  rintro o cs ⟨range, x⟩ rest ⟨rfl, hx⟩ hrest
  obtain ⟨hhead, hne, hread⟩ := h hx hrest
  exact ⟨hhead, hne, by rw [read_placed, hread, Option.map_some]⟩

theorem read_mark_cons (m : Char) (o : ℕ) (rest : List Char) :
    read (.mark m) ⟨o, m :: rest⟩ = some ((), ⟨o + m.utf8Size, rest⟩) := by
  simp [read_mark, Cursor.mark?]

/-- Between marks, the body is read and then the closing mark. -/
theorem read_between (opening closing : Char) (body : Grammar α) (o : ℕ) (rest : List Char) :
    read (.between opening closing body) ⟨o, opening :: rest⟩ =
      match read body (Cursor.skipBlanks ⟨o + opening.utf8Size, rest⟩) with
      | none => none
      | some (x, d) => (read (.mark closing) d.skipBlanks).map fun (_, e) => (x, e) := by
  rw [Grammar.between, seqRight, read_map, read_seq, read_mark_cons]
  simp only [Option.bind_some, seqLeft, read_map, read_seq]
  cases read body (Cursor.skipBlanks ⟨o + opening.utf8Size, rest⟩) with
  | none => rfl
  | some result =>
    obtain ⟨x, d⟩ := result
    cases h : read (.mark closing) d.skipBlanks <;> simp [h]

/-- What stands between marks has blanks on either side, and these belong to the whole. -/
theorem spells_between {opening closing : Char} {body : Grammar α} {o : ℕ} {cs : List Char}
    {x : α} : Spells (.between opening closing body) o cs x ↔
      ∃ blanks xs blanks', cs = opening :: (blanks ++ (xs ++ (blanks' ++ [closing]))) ∧
        Blank blanks ∧ Blank blanks' ∧
        Spells body (o + opening.utf8Size + byteLength blanks) xs x := by
  constructor
  · rintro ⟨⟨-, x⟩, ⟨_, blanks, _, rfl, hblanks, rfl,
      ⟨⟨y, -⟩, ⟨xs, blanks', _, rfl, hblanks', hxs, rfl⟩, rfl⟩⟩, rfl⟩
    refine ⟨blanks, xs, blanks', by simp, hblanks, hblanks', ?_⟩
    simpa [Nat.add_assoc] using hxs
  · rintro ⟨blanks, xs, blanks', rfl, hblanks, hblanks', hxs⟩
    refine ⟨((), x), ⟨[opening], blanks, xs ++ blanks' ++ [closing], by simp, hblanks, rfl,
      ⟨(x, ()), ⟨xs, blanks', [closing], rfl, hblanks', ?_, rfl⟩, rfl⟩⟩, rfl⟩
    simpa [Nat.add_assoc] using hxs

/-- Where the body is not read, nothing is read between marks. -/
theorem read_between_of_body {opening : Char} (ho : isBlank opening = false) (closing : Char)
    {body : Grammar α} {o : ℕ} {rest : List Char}
    (h : read body (Cursor.skipBlanks ⟨o + opening.utf8Size, rest⟩) = none) :
    read (.between opening closing body) (Cursor.skipBlanks ⟨o, opening :: rest⟩) = none := by
  rw [Cursor.skipBlanks_cons ho, read_between, h]

/-- Where another mark stands behind the body, nothing is read between marks. -/
theorem read_between_of_closing {opening closing : Char} (ho : isBlank opening = false)
    (hc : isBlank closing = false) {body : Grammar α} {fits : List Char → Prop}
    (h : Reads body fits) {o o' : ℕ} {blanks xs rest : List Char} {x : α} (hblanks : Blank blanks)
    (hxs : Spells body o' xs x) (hrest : fits rest) (hstops : Stops {closing} rest) :
    read (.between opening closing body)
      (Cursor.skipBlanks ⟨o, opening :: (blanks ++ (xs ++ rest))⟩) = none := by
  obtain ⟨x', hxs⟩ := exists_spells_at body hxs (o + opening.utf8Size + byteLength blanks)
  obtain ⟨d, hd, hskip⟩ := h hxs hrest
  rw [Cursor.skipBlanks_cons ho, read_between, Cursor.skipBlanks_append hblanks, hd]
  simp only [hskip, (Opens.mark hc).read_eq_none hstops, Option.map_none]

/-- **A text between marks is read exactly**, before any text. -/
theorem ReadsExactly.between {opening closing : Char} (ho : isBlank opening = false)
    (hc : isBlank closing = false) {body : Grammar α} {marks : Set Char}
    (h : Reads body (Stops marks)) (hmarks : closing ∉ marks) :
    ReadsExactly (.between opening closing body) Any := by
  intro o cs x rest hs _
  obtain ⟨blanks, xs, blanks', rfl, hblanks, hblanks', hxs⟩ := spells_between.1 hs
  refine ⟨by simpa using ho, by simp, ?_⟩
  obtain ⟨d, hd, hskip⟩ := h hxs (stops_blank_cons hblanks' hc hmarks rest)
  rw [Cursor.skipBlanks_append hblanks', Cursor.skipBlanks_cons hc] at hskip
  simp only [List.cons_append, List.append_assoc, List.nil_append]
  rw [read_between, Cursor.skipBlanks_append hblanks, hd]
  simp only [hskip, read_mark_cons, Option.map_some]
  simp [Nat.add_assoc]

/-- Brackets around a text open one more. -/
theorem HasDepth.between {opening : Char} (hm : opening = '[' ∨ opening = '(') (closing : Char)
    {body : Grammar α} {k : ℕ} (h : HasDepth body {k}) :
    HasDepth (.between opening closing body) {k + 1} := by
  intro o cs x hs rest
  obtain ⟨blanks, xs, blanks', rfl, hblanks, -, hxs⟩ := spells_between.1 hs
  have hblank : isBlank opening = false := by rcases hm with rfl | rfl <;> rfl
  have hk : depth (xs ++ (blanks' ++ [closing] ++ rest)) = k := h hxs _
  rw [Set.mem_singleton_iff, ← hk]
  simp only [List.append_assoc, List.cons_append]
  rw [depth, if_neg (by simp [hblank]), if_pos hm, depth_blank_append hblanks]

/-- A curly bracket settles the depth. -/
theorem HasDepth.curly (closing : Char) (body : Grammar α) :
    HasDepth (.between '{' closing body) {8} := by
  intro o cs x hs rest
  obtain ⟨blanks, xs, blanks', rfl, -, -, -⟩ := spells_between.1 hs
  rfl

/-! ## Choices -/

/-- Where the first alternative reads nothing that the second spells, the choice reads both. -/
theorem Reads.either {g g' : Grammar α} {fits : List Char → Prop} (h : Reads g fits)
    (h' : Reads g' fits)
    (hnone : ∀ {o cs x rest}, Spells g' o cs x → fits rest →
      read g (Cursor.skipBlanks ⟨o, cs ++ rest⟩) = none) : Reads (.either g g') fits := by
  rintro o cs x rest (hs | hs) hrest
  · obtain ⟨d, hd, hskip⟩ := h hs hrest
    exact ⟨d, by rw [read_either, hd, Option.some_or], hskip⟩
  · obtain ⟨d, hd, hskip⟩ := h' hs hrest
    exact ⟨d, by rw [read_either, hnone hs hrest, Option.none_or, hd], hskip⟩

/-- What is spelled is read before a text that fits, and opens one of these numbers of brackets. -/
structure ReadsNested (g : Grammar α) (fits : List Char → Prop) (ks : Set ℕ) : Prop where
  reads : Reads g fits
  depth : HasDepth g ks

/-- **Alternatives that open different numbers of brackets** are told apart. -/
theorem ReadsNested.either {g g' : Grammar α} {fits : List Char → Prop} {ks ks' : Set ℕ}
    (h : ReadsNested g fits ks) (h' : ReadsNested g' fits ks') (hdisjoint : ∀ k ∈ ks', k ∉ ks) :
    ReadsNested (.either g g') fits (ks ∪ ks') :=
  ⟨h.reads.either h'.reads fun hs _ => h.depth.read_eq_none (hdisjoint _ (h'.depth hs _)),
    h.depth.either h'.depth⟩

/-- A renaming changes neither what is read nor how deep it is. -/
theorem ReadsNested.map {g : Grammar α} {fits : List Char → Prop} {ks : Set ℕ}
    (h : ReadsNested g fits ks) (f : α → β) : ReadsNested (.map f g) fits ks :=
  ⟨h.reads.map f, h.depth.map f⟩

theorem ReadsNested.mono {g : Grammar α} {fits fits' : List Char → Prop} {ks : Set ℕ}
    (h : ReadsNested g fits ks) (hfits : ∀ {rest}, fits' rest → fits rest) :
    ReadsNested g fits' ks := ⟨h.reads.mono hfits, h.depth⟩

theorem ReadsNested.before {g : Grammar α} {ks : Set ℕ} (h : ReadsNested g Any ks)
    (fits : List Char → Prop) : ReadsNested g fits ks := h.mono fun _ => trivial

theorem Reads.empty : Reads .empty Any := by
  rintro o cs x rest rfl -
  exact ⟨_, rfl, by simp⟩

/-- What may be left out is read before what it does not begin with. -/
theorem Reads.optional {g : Grammar α} (h : Reads g Any) {marks : Set Char}
    (hopen : Opens g marks) : Reads (.optional g) (Stops marks) := by
  refine ((h.map some).mono fun _ => trivial).either ((Reads.empty.map _).mono fun _ => trivial) ?_
  rintro o cs x rest ⟨-, rfl, -⟩ hrest
  rw [List.nil_append, read_map, hopen.read_eq_none hrest, Option.map_none]

/-! ## Repetitions -/

/-- How many characters are no blanks. -/
abbrev solid (cs : List Char) : ℕ := cs.countP fun c => !isBlank c

theorem solid_skipBlanks (c : Cursor) : solid c.skipBlanks.rest = solid c.rest := by
  obtain ⟨blanks, hblanks, hrest, -⟩ := c.exists_skipBlanks
  have hzero : solid blanks = 0 := List.countP_eq_zero.2 fun b hb => by simp [hblanks b hb]
  have happend : solid c.rest = solid blanks + solid c.skipBlanks.rest := by
    rw [hrest]
    exact List.countP_append
  omega

/-- A text that leads with a character is not all blanks. -/
theorem solid_pos_of_lead {cs : List Char} {c : Char} (h : lead cs = some c) : 0 < solid cs :=
  List.countP_pos_iff.2 ⟨c, List.mem_of_find?_eq_some h,
    List.find?_some (p := fun c => !isBlank c) h⟩

/-- Each round holds a character that is no blank. -/
theorem length_le_solid {body : Grammar α} {marks : Set Char} (hopen : Opens body marks) :
    ∀ {o : ℕ} {cs : List Char} {l : List α}, Rounds (Spells body) o cs l → l.length ≤ solid cs
  | _, _, _, .nil _ => Nat.zero_le _
  | _, _, _, @Rounds.cons _ _ _ _ _ _ _ _ hxs _ hmore => by
    obtain ⟨c, -, hlead⟩ := hopen hxs
    have hpos := solid_pos_of_lead hlead
    have hrest := length_le_solid hopen hmore
    simp only [solid, List.length_cons, List.countP_append] at hpos hrest ⊢
    omega

section Many

variable {body : Grammar α} {fits : List Char → Prop} {rest : List Char}

/-- Behind a round comes another one, or the text behind all rounds. -/
theorem fits_of_rounds
    (hnext : ∀ {o ys y rest blanks}, Spells body o ys y → Blank blanks →
      fits (blanks ++ (ys ++ rest)))
    (hlast : ∀ {blanks}, Blank blanks → fits (blanks ++ rest)) {o : ℕ} {ys : List Char}
    {l : List α} (h : Rounds (Spells body) o ys l) {blanks : List Char} (hblanks : Blank blanks) :
    fits (blanks ++ (ys ++ rest)) := by
  cases h with
  | nil => exact hlast hblanks
  | cons first _ _ =>
    rw [List.append_assoc, List.append_assoc]
    exact hnext first hblanks

/-- **Each round that is spelled is read**, and behind the last one none fits. The blanks before it
are not taken, so only the skipped places agree. -/
theorem rounds_of_spells (h : Reads body fits)
    (hnext : ∀ {o ys y rest blanks}, Spells body o ys y → Blank blanks →
      fits (blanks ++ (ys ++ rest)))
    (hlast : ∀ {blanks}, Blank blanks → fits (blanks ++ rest))
    (hnone : ∀ o, read body (Cursor.skipBlanks ⟨o, rest⟩) = none)
    {o : ℕ} {ys : List Char} {l : List α} (hl : Rounds (Spells body) o ys l) {bound : List Char}
    {c : Cursor} (hlen : l.length ≤ bound.length)
    (hc : c.skipBlanks = Cursor.skipBlanks ⟨o, ys ++ rest⟩) :
    ∃ e, rounds (read body) bound c = (l, e) ∧
      e.skipBlanks = Cursor.skipBlanks ⟨o + byteLength ys, rest⟩ := by
  induction hl generalizing bound c with
  | nil o =>
    cases bound with
    | nil => exact ⟨c, rfl, hc⟩
    | cons b bound =>
      refine ⟨c, ?_, hc⟩
      rw [rounds, hc, List.nil_append, hnone]
  | cons hxs hblanks hmore ih =>
    cases bound with
    | nil => cases hlen
    | cons b bound =>
      obtain ⟨d, hd, hskip⟩ := h hxs (fits_of_rounds hnext hlast hmore hblanks)
      rw [Cursor.skipBlanks_append hblanks] at hskip
      obtain ⟨e, he, hend⟩ := ih (c := d) (Nat.le_of_succ_le_succ hlen)
        (by rw [hskip, byteLength_append, Nat.add_assoc])
      refine ⟨e, ?_, ?_⟩
      · rw [rounds, hc, List.append_assoc, List.append_assoc, hd]
        simp only [he]
      · rw [hend]
        simp only [byteLength_append, Nat.add_assoc]

/-- **Rounds are read up to a text that the body does not read**, if each round is read before the
next one. -/
theorem repeated_of_spells {marks : Set Char} (h : Reads body fits) (hopen : Opens body marks)
    (hnext : ∀ {o ys y rest blanks}, Spells body o ys y → Blank blanks →
      fits (blanks ++ (ys ++ rest)))
    (hlast : ∀ {blanks}, Blank blanks → fits (blanks ++ rest))
    (hnone : ∀ o, read body (Cursor.skipBlanks ⟨o, rest⟩) = none) {o : ℕ} {cs : List Char}
    {l : List α} (hl : Rounds (Spells body) o cs l) :
    ∃ e, repeated (read body) (Cursor.skipBlanks ⟨o, cs ++ rest⟩) = (l, e) ∧
      e.skipBlanks = Cursor.skipBlanks ⟨o + byteLength cs, rest⟩ := by
  have hlen := length_le_solid hopen hl
  have hsolid : solid (Cursor.skipBlanks ⟨o, cs ++ rest⟩).rest = solid cs + solid rest :=
    (solid_skipBlanks _).trans List.countP_append
  have hbound : solid (Cursor.skipBlanks ⟨o, cs ++ rest⟩).rest ≤ _ := List.countP_le_length
  obtain _ | @⟨_, xs, blanks, ys, x, l, hxs, hblanks, hmore⟩ := hl
  · refine ⟨_, ?_, Cursor.skipBlanks_skipBlanks _⟩
    rw [List.nil_append, repeated, hnone]
    rfl
  · obtain ⟨d, hd, hskip⟩ := h hxs (fits_of_rounds hnext hlast hmore hblanks)
    rw [Cursor.skipBlanks_append hblanks] at hskip
    rw [List.length_cons] at hlen
    have htries : l.length ≤ (Cursor.skipBlanks ⟨o, xs ++ blanks ++ ys ++ rest⟩).rest.length := by
      omega
    obtain ⟨e, he, hend⟩ := rounds_of_spells h hnext hlast hnone hmore (c := d) htries
      (by rw [hskip, byteLength_append, Nat.add_assoc])
    refine ⟨e, ?_, ?_⟩
    · rw [← List.append_assoc, ← List.append_assoc] at hd
      rw [repeated, hd]
      simp only [he]
    · rw [hend]
      simp only [byteLength_append, Nat.add_assoc]

/-- A repetition is read up to a text that the body does not read. -/
theorem Reads.many {marks : Set Char} (h : Reads body fits) (hopen : Opens body marks)
    (hnext : ∀ {o ys y rest blanks}, Spells body o ys y → Blank blanks →
      fits (blanks ++ (ys ++ rest))) :
    Reads (.many body) fun rest => (∀ {blanks}, Blank blanks → fits (blanks ++ rest)) ∧
      ∀ o, read body (Cursor.skipBlanks ⟨o, rest⟩) = none := by
  rintro o cs l rest hl ⟨hlast, hnone⟩
  obtain ⟨e, he, hend⟩ := repeated_of_spells h hopen hnext hlast hnone hl
  exact ⟨e, by rw [read_many, he], hend⟩

/-- **A repetition is read up to a text that begins differently.** -/
theorem Reads.many_of_opens {marks stops : Set Char} (h : Reads body (Stops stops))
    (hopen : Opens body marks) (hdisjoint : ∀ c ∈ marks, c ∉ stops) :
    Reads (.many body) (Stops (stops ∪ marks)) := by
  refine (h.many hopen fun hy hblanks => ?_).mono fun hrest => ⟨fun hblanks => ?_, fun o => ?_⟩
  · obtain ⟨c, hc, hlead⟩ := hopen hy
    exact (stops_blank_append hblanks).2 (stops_append hlead (hdisjoint c hc) _)
  · exact (stops_blank_append hblanks).2 fun c hc hstops => hrest c hc (.inl hstops)
  · exact hopen.read_eq_none fun c hc hmarks => hrest c hc (.inr hmarks)

/-- Where no text tempts the body to go on, a repetition is read up to one that begins differently.
-/
theorem Reads.many_of_any {marks : Set Char} (h : Reads body Any) (hopen : Opens body marks) :
    Reads (.many body) (Stops marks) :=
  (h.many hopen fun _ _ => trivial).mono fun hrest =>
    ⟨fun _ => trivial, fun _ => hopen.read_eq_none hrest⟩

end Many

/-- A first text that is read before anything is read before the second. -/
theorem Reads.seq_of_any {first : Grammar α} {second : Grammar β} {fits : List Char → Prop}
    (h : Reads first Any) (h' : Reads second fits) : Reads (.seq first second) fits :=
  h.seq h' fun _ _ _ => trivial

/-- The second text does not begin as the first one would go on. -/
theorem Reads.seq_of_opens {first : Grammar α} {second : Grammar β} {fits : List Char → Prop}
    {marks stops : Set Char} (h : Reads first (Stops stops)) (h' : Reads second fits)
    (hopen : Opens second marks) (hdisjoint : ∀ c ∈ marks, c ∉ stops) :
    Reads (.seq first second) fits :=
  h.seq h' fun hy _ hblanks =>
    let ⟨c, hc, hlead⟩ := hopen hy
    (stops_blank_append hblanks).2 (stops_append hlead (hdisjoint c hc) _)

/-- A mark is read before anything. -/
theorem Reads.markRight {m : Char} (hm : isBlank m = false) {g : Grammar α}
    {fits : List Char → Prop} (h : Reads g fits) : Reads (seqRight (.mark m) g) fits :=
  ((ReadsExactly.mark hm).reads.seq_of_any h).map _

/-- One round or more are read before what does not begin another one. -/
theorem Reads.some1 {g : Grammar α} {marks : Set Char} (h : Reads g Any) (hopen : Opens g marks) :
    Reads (.some1 g) (Stops marks) :=
  (h.seq_of_any (h.many_of_any hopen)).map _

/-- A list with separators is read before what is no separator. -/
theorem Reads.separated {separator : Char} (hs : isBlank separator = false) {g : Grammar α}
    (h : Reads g Any) : Reads (.separated separator g) (Stops {separator}) :=
  (h.seq_of_any ((h.markRight hs).many_of_any ((Opens.mark hs).seqRight g))).map _

/-- The entries may tempt to go on, but not with the separator. -/
theorem Reads.separated_of_stops {separator : Char} (hs : isBlank separator = false) {g : Grammar α}
    {stops : Set Char} (h : Reads g (Stops stops)) (hseparator : separator ∉ stops) :
    Reads (.separated separator g) (Stops (stops ∪ {separator})) := by
  have hopen := (Opens.mark hs).seqRight g
  have hmore := (h.markRight hs).many_of_opens hopen fun c hc => by rwa [Set.mem_singleton_iff.1 hc]
  refine (h.seq hmore fun hy hrest hblanks => ?_).map _
  refine fits_of_rounds (fun hy hblanks => ?_) (fun hblanks => ?_) hy hblanks
  · obtain ⟨c, hc, hlead⟩ := hopen hy
    rw [stops_blank_append hblanks]
    exact stops_append hlead (by rwa [Set.mem_singleton_iff.1 hc]) _
  · rw [stops_blank_append hblanks]
    exact fun c hc hstops => hrest c hc (.inl hstops)

end Grammar

end Metalanguage
