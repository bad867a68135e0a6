import Metalanguage.GraphDocument
import Metalanguage.Proofs.Reader.Follows

/-!
# Proofs/Reader/Limits — limits only add refusals

Wider limits change an answer only if it was that something is too large: whatever else a text, a
graph document or a list of clauses is answered, be it a result or an error, it is answered again
(`Reader.same_under_wider_limits`). So the checks of sizes never decide between two other answers,
although they stand between other checks and reach into sentences on every level.
-/

namespace Metalanguage

/-- **Not refused for size.** -/
def Fits {α : Type} (x : Except Error α) : Prop :=
  ∀ quantity limit actual, x ≠ .error (.sizeExceeded quantity limit actual)

/-- The error that there is too much of something. -/
def Error.IsExcess (e : Error) : Prop :=
  ∃ quantity limit actual, e = .sizeExceeded quantity limit actual

/-- **Only an excess is pardoned** when a limit becomes wider. -/
theorem Loosens.of_le {limit limit' : ℕ} (h : limit ≤ limit') :
    Loosens Error.IsExcess limit limit' :=
  .inr ⟨h, fun _ _ _ => ⟨_, _, _, rfl⟩⟩

/-- An answer that is no excess is given again. -/
theorem Follows.eq_of_fits {α : Type} {x y : Except Error α} (h : Follows Error.IsExcess id x y)
    (hx : Fits x) : y = x :=
  h.eq fun _ ⟨quantity, limit, actual, he⟩ => he ▸ hx quantity limit actual

section Limits

variable {d : Dictionary} {l l' : Limits} (hnodes : l.maxNodes ≤ l'.maxNodes)
  (hbytes : l.maxBytes ≤ l'.maxBytes)

include hnodes hbytes

/-- **Wider limits only lift refusals** of a text. -/
theorem Reader.follows_under_limits (source input : String) :
    Follows Error.IsExcess id (parse ⟨d, l⟩ source input) (parse ⟨d, l'⟩ source input) := by
  have hwidens : Context.Widens Error.IsExcess id (context ⟨d, l⟩ source input)
      (context ⟨d, l'⟩ source input) :=
    ⟨.id, fun script => .inl (Option.map_id_apply).symm, .of_le hnodes, rfl, rfl⟩
  have hparse := follows_parse hwidens (.of_le hbytes)
  rwa [show (fun x : Expression => x.mapTerms id) = id from
    funext Expression.mapTerms_id] at hparse

namespace GraphDocument

/-- The nodes of a document are read one by one, each as a text. -/
theorem follows_readNodes (nodes : List NumberedNode) :
    Follows Error.IsExcess id (readNodes ⟨d, l⟩ nodes) (readNodes ⟨d, l'⟩ nodes) :=
  Follows.foldlM (fun table node =>
    (Reader.follows_under_limits hnodes hbytes _ node.written).bind fun x => by
      split <;> exact .of_eq rfl) nodes []

omit hnodes hbytes in
theorem follows_self {α : Type} (x : Except Error α) : Follows Error.IsExcess id x x :=
  .of_eq (by cases x <;> rfl)

/-- The table of a document is built under either limit; the sentence on it asks for the limit on
nodes once more. -/
theorem follows_sentenceOf (nodes : List NumberedNode) (graph : List ClauseRoles) :
    Follows Error.IsExcess id (sentenceOf ⟨d, l⟩ nodes graph) (sentenceOf ⟨d, l'⟩ nodes graph) := by
  refine (follows_readNodes hnodes hbytes nodes).bind fun table => ?_
  refine (follows_self _).bind fun clauses => ?_
  rcases Sentence.ofClauses_of_limit_le hnodes clauses with heq | ⟨quantity, actual, hmany⟩
  · exact heq ▸ follows_self _
  · exact hmany ▸ .of_pardoned ⟨_, _, _, rfl⟩ _

end GraphDocument

theorem Reader.follows_sentenceFromGraph (text : String) :
    Follows Error.IsExcess id (sentenceFromGraph ⟨d, l⟩ text) (sentenceFromGraph ⟨d, l'⟩ text) := by
  rw [sentenceFromGraph, sentenceFromGraph]
  cases GraphDocument.sentenceContentOf? text with
  | none => exact .of_eq rfl
  | some content => exact GraphDocument.follows_sentenceOf hnodes hbytes content.1 content.2

/-- **Limits only add refusals.** Under wider limits, a text, a graph document and a list of clauses
over any nodes get the answer that they get under narrower ones, unless that is a refusal for size. -/
theorem Reader.same_under_wider_limits :
    (∀ source input, Fits (parse ⟨d, l⟩ source input) →
        parse ⟨d, l'⟩ source input = parse ⟨d, l⟩ source input) ∧
      (∀ text, Fits (sentenceFromGraph ⟨d, l⟩ text) →
        sentenceFromGraph ⟨d, l'⟩ text = sentenceFromGraph ⟨d, l⟩ text) ∧
      ∀ {N : Type} [ClauseNode N] (clauses : List (Clause N)),
        Fits (Sentence.ofClauses l.maxNodes clauses) →
          Sentence.ofClauses l'.maxNodes clauses = Sentence.ofClauses l.maxNodes clauses := by
  refine ⟨fun source input => (follows_under_limits hnodes hbytes source input).eq_of_fits,
    fun text => (follows_sentenceFromGraph hnodes hbytes text).eq_of_fits,
    fun clauses hfits => ?_⟩
  rcases Sentence.ofClauses_of_limit_le hnodes clauses with heq | ⟨quantity, actual, hmany⟩
  · exact heq
  · exact absurd hmany (hfits _ _ _)

end Limits

/-- A text of fourteen bytes and a sentence of three nodes are the same under limits that they just
keep to as under wider ones. -/
theorem Reader.same_under_wider_limits_fork :
    parse ⟨Sample.dictionary, ⟨4, 300⟩⟩ "sample" "[([a.])]<here>" =
        parse ⟨Sample.dictionary, ⟨3, 14⟩⟩ "sample" "[([a.])]<here>" ∧
      Sentence.ofClauses 4 Sample.fork = Sentence.ofClauses 3 Sample.fork := by
  have hnodes : (Limits.mk 3 14).maxNodes ≤ (Limits.mk 4 300).maxNodes := by decide
  have hbytes : (Limits.mk 3 14).maxBytes ≤ (Limits.mk 4 300).maxBytes := by decide
  obtain ⟨hparse, -, hclauses⟩ :=
    same_under_wider_limits (d := Sample.dictionary) hnodes hbytes
  refine ⟨hparse _ _ fun _ _ _ h => ?_, hclauses _ fun _ _ _ h => ?_⟩
  · have hok : ∃ x, parse ⟨Sample.dictionary, ⟨3, 14⟩⟩ "sample" "[([a.])]<here>" = .ok x :=
      ⟨_, rfl⟩
    obtain ⟨x, hx⟩ := hok
    rw [hx] at h
    cases h
  · have hok : ∃ s, Sentence.ofClauses 3 Sample.fork = .ok s := ⟨_, rfl⟩
    obtain ⟨s, hs⟩ := hok
    rw [hs] at h
    cases h

end Metalanguage
