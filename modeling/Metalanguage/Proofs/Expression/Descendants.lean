import Metalanguage.Proofs.Expression.Order

/-!
# Proofs/Expression/Descendants — looking for a part is looking through its descendants

A part is what it is made of, and what that is made of (`Part.descendants_eq`), and each level's own
way to look for a needle asks the same of its children (`Part.contains_iff_children`): no level
loses a kind of needle, by either of the hooks that clauses and sentences share
(`PartNode.Agrees`).
-/

namespace Metalanguage

open Std Ordered

namespace Part

/-! ## Levels -/

/-- The children of a part are of lower kinds. -/
theorem kind_lt_of_mem_children {p c : Part} (h : c ∈ p.children) :
    c.kind.ctorIdx < p.kind.ctorIdx := by
  cases p <;> simp only [children, List.mem_map, List.not_mem_nil] at h
  all_goals
    obtain ⟨_, -, rfl⟩ := h
    exact Nat.lt_succ_self _

/-- What passes from the children of a part to the part holds of every part. -/
theorem induction {motive : Part → Prop} (step : ∀ p, (∀ c ∈ p.children, motive c) → motive p)
    (p : Part) : motive p :=
  step p fun c _ => induction step c
termination_by p.kind.ctorIdx
decreasing_by exact kind_lt_of_mem_children ‹_›

/-- **The descendants of a part** are its children and their descendants. -/
theorem descendants_eq (p : Part) : p.descendants = p.children.flatMap fun c => c :: c.descendants := by
  cases p with
  | term t => rfl
  | morpheme m => simp [descendants, children, ofMorpheme, List.flatMap_map, ← List.map_eq_flatMap]
  | word w => simp [descendants, children, ofWord, List.flatMap_map]
  | clause c => simp [descendants, children, ofClause, List.flatMap_map]
  | sentence s => simp [descendants, children, ofSentence, List.flatMap_map]
  | superClause c => simp [descendants, children, ofSuperClause, List.flatMap_map]
  | superSentence s => simp [descendants, children, ofSuperSentence, List.flatMap_map]

/-- A descendant is a child, or a descendant of one. -/
theorem mem_descendants_iff {p q : Part} :
    q ∈ p.descendants ↔ ∃ c ∈ p.children, q = c ∨ q ∈ c.descendants := by
  rw [descendants_eq, List.mem_flatMap]
  simp only [List.mem_cons]

end Part

/-! ## Looking for a needle -/

/-- The nodes of clauses and the clauses over them are parts, and the hooks find out which: a node is
found by its canonical form, a clause by its equality, and a clause is neither a node nor below
one. -/
structure PartNode.Agrees {N : Type} [PartNode N] (node : N → Part) (clause : Clause N → Part) :
    Prop where
  node_beq : ∀ n q, (node n == q) =
    match (node? q : Option N) with
    | some m => ClauseNode.canonical n == ClauseNode.canonical m
    | none => false
  clause_beq : ∀ c q, (clause c == q) =
    match (clause? q : Option (Clause N)) with
    | some d => c == d
    | none => false
  not_below : ∀ {q : Part} {d : Clause N}, clause? q = some d →
    (node? q : Option N) = none ∧ ∀ n : N, nodeContains n q = false

namespace PartNode.Agrees

variable {N : Type} [PartNode N] {node : N → Part} {clause : Clause N → Part}
  (h : Agrees node clause)

include h

/-- A clause asks its three nodes ... -/
theorem clause_contains_iff {c : Clause N} {q : Part} : c.contains q = true ↔
    ∃ n ∈ c.nodes, (node n == q) = true ∨ nodeContains n q = true := by
  have hnode : c.hasNode q = true ↔ ∃ n ∈ c.nodes, (node n == q) = true := by
    simp only [Clause.hasNode, h.node_beq]
    cases (node? q : Option N) with
    | none => simp
    | some m => rw [List.any_eq_true]
  rw [Clause.contains, Bool.or_eq_true, hnode, List.any_eq_true, ← exists_or]
  simp only [and_or_left]

/-- ... and a sentence its clauses. -/
theorem sentence_contains_iff {s : Sentence N} {q : Part} : s.contains q = true ↔
    ∃ c ∈ s.clauses, (clause c == q) = true ∨ c.contains q = true := by
  simp only [Sentence.contains, h.clause_beq]
  cases hq : (clause? q : Option (Clause N)) with
  | none => simp
  | some d =>
    obtain ⟨hnode, hbelow⟩ := h.not_below hq
    have hcontains : ∀ c : Clause N, c.contains q = false := fun c => by
      simp [Clause.contains, Clause.hasNode, hnode, hbelow]
    simp [hcontains]

end PartNode.Agrees

theorem PartNode.agrees_word : PartNode.Agrees Part.word Part.clause where
  node_beq n q := by cases q <;> rfl
  clause_beq c q := by cases q <;> rfl
  not_below {q d} h := by cases q <;> first | exact ⟨rfl, fun _ => rfl⟩ | cases h

theorem PartNode.agrees_sentence : PartNode.Agrees Part.sentence Part.superClause where
  node_beq n q := by cases q <;> rfl
  clause_beq c q := by cases q <;> rfl
  not_below {q d} h := by
    cases q <;> try cases h
    refine ⟨rfl, fun s => ?_⟩
    simp [PartNode.nodeContains, Sentence.contains, PartNode.clause?, Clause.contains,
      Clause.hasNode, PartNode.node?, Word.contains]

namespace Part

/-- There is nothing below the terms of a morpheme. -/
theorem morpheme_contains_iff {m : Morpheme} {q : Part} : (morpheme m).contains q = true ↔
    ∃ t ∈ m.terms, (term t == q) = true := by
  cases q with
  | term u => exact morpheme_hasChild_term_iff
  | _ => exact ⟨nofun, fun ⟨_, _, h⟩ => absurd h Bool.false_ne_true⟩

/-- The mode of a word is asked as its substance is. -/
theorem word_contains_iff {w : Word} {q : Part} : w.contains q = true ↔
    ∃ m ∈ w.morphemes, (morpheme m == q) = true ∨ (morpheme m).contains q = true := by
  cases q with
  | term u =>
    refine List.any_eq_true.trans (exists_congr fun m => and_congr_right fun _ => ?_)
    exact ⟨.inr, fun h => h.resolve_left Bool.false_ne_true⟩
  | morpheme n =>
    refine List.any_eq_true.trans (exists_congr fun m => and_congr_right fun _ => ?_)
    exact ⟨.inl, fun h => h.resolve_right Bool.false_ne_true⟩
  | _ => exact ⟨nofun, fun ⟨_, _, h⟩ => (absurd · Bool.false_ne_true) <| h.elim id id⟩

/-- **A needle is in a part if a child is the needle or contains it.** -/
theorem contains_iff_children {p q : Part} : p.contains q = true ↔
    ∃ c ∈ p.children, (c == q) = true ∨ c.contains q = true := by
  cases p <;> simp only [children, List.mem_map, exists_exists_and_eq_and]
  case term t => simp [contains]
  case morpheme m => simpa [contains] using morpheme_contains_iff
  case word w => exact word_contains_iff
  case clause c => exact PartNode.agrees_word.clause_contains_iff
  case sentence s => exact PartNode.agrees_word.sentence_contains_iff
  case superClause c => exact PartNode.agrees_sentence.clause_contains_iff
  case superSentence s => exact PartNode.agrees_sentence.sentence_contains_iff

end Part

end Metalanguage
