import Metalanguage.Proofs.Grammar.Bare

/-!
# Proofs/Grammar/Balance — the brackets that the texts of a grammar leave open

All texts of a grammar may have the same surplus of opening brackets over closing ones. The form of
the grammar shows it where alternatives agree and repetitions add nothing (`Grammar.surplus?`), and
then it is the surplus that the scan counts in whatever a derivation generates
(`Grammar.surplus_outsideLiterals`): only marks count, because scripts hold no brackets and the scan
leaves literals out.
-/

namespace Metalanguage

namespace Bracket

variable {b : Bracket}

/-! ## Surplus -/

/-- **How many more opening than closing brackets** of a pair there are. -/
def surplus (b : Bracket) (cs : List Char) : ℤ := cs.count b.opening - cs.count b.closing

@[simp] theorem surplus_nil (b : Bracket) : b.surplus [] = 0 := rfl

/-- The surplus of a text is that of its pieces together. -/
@[simp] theorem surplus_append (b : Bracket) (cs ds : List Char) :
    b.surplus (cs ++ ds) = b.surplus cs + b.surplus ds := by
  simp only [surplus, List.count_append]
  omega

/-- Other characters do not count. -/
theorem surplus_filter {p : Char → Bool} (hopening : p b.opening = true)
    (hclosing : p b.closing = true) (cs : List Char) : b.surplus (cs.filter p) = b.surplus cs := by
  rw [surplus, surplus, List.count_filter hopening, List.count_filter hclosing]

/-- A text without such brackets has none. -/
theorem surplus_eq_zero {cs : List Char} (hopening : b.opening ∉ cs) (hclosing : b.closing ∉ cs) :
    b.surplus cs = 0 := by
  rw [surplus, List.count_eq_zero_of_not_mem hopening, List.count_eq_zero_of_not_mem hclosing]
  rfl

/-- **No pair is named** exactly if none has a surplus outside of literals. -/
theorem unbalanced?_eq_none_iff {cs : List Char} :
    unbalanced? cs = none ↔ ∀ b : Bracket, b.surplus (outsideLiterals cs) = 0 := by
  have hpairs : ∀ b : Bracket, b ∈ [square, round, curly] := fun b => by cases b <;> decide
  have heven : ∀ b : Bracket, b.surplus (outsideLiterals cs) = 0 ↔
      (outsideLiterals cs).count b.opening = (outsideLiterals cs).count b.closing := fun b => by
    rw [surplus]
    omega
  simp only [unbalanced?, List.find?_eq_none, heven]
  exact ⟨fun h b => by simpa using h b (hpairs b), fun h b _ => by simpa using h b⟩

end Bracket

namespace Grammar

open Metalanguage.Bracket

variable {b : Bracket}

/-! ## The surplus of a grammar -/

/-- The surplus of a pair that all texts of a grammar share, where the form of the grammar shows
one. -/
def surplus? (b : Bracket) : {α : Type} → Grammar α → Option ℤ
  | _, .empty => some 0
  | _, .mark c => some (b.surplus [c])
  | _, .script => some 0
  | _, .literal => some 0
  | _, .finish => some 0
  | _, .seq first second =>
    match surplus? b first, surplus? b second with
    | some j, some k => some (j + k)
    | _, _ => none
  | _, .either first second =>
    match surplus? b first, surplus? b second with
    | some j, some k => if j = k then some j else none
    | _, _ => none
  | _, .many body => if surplus? b body = some 0 then some 0 else none
  | _, .named _ body => surplus? b body
  | _, .placed body => surplus? b body
  | _, .map _ body => surplus? b body

/-- What is left of some tokens when the literals among them are taken out. -/
def keptText (tokens : List (List Char)) : List Char := (tokens.filter isKept).flatten

/-- What is kept of tokens in a row is what is kept of each. -/
theorem keptText_append (tokens more : List (List Char)) :
    keptText (tokens ++ more) = keptText tokens ++ keptText more := by
  rw [keptText, List.filter_append, List.flatten_append]
  rfl

theorem surplus_keptText_singleton {token : List Char} (h : isKept token = false →
    b.surplus token = 0) : b.surplus (keptText [token]) = b.surplus token := by
  cases hkept : isKept token with
  | true => simp [keptText, hkept]
  | false => simp [keptText, hkept, h hkept]

/-- Scripts hold no brackets. -/
theorem surplus_script {run : List Char} (h : ∀ c ∈ run, Script.isScriptChar c = true) :
    b.surplus run = 0 := by
  refine surplus_eq_zero (fun hmem => ?_) fun hmem => ?_
  all_goals
    have hscript := h _ hmem
    revert hscript
    cases b <;> decide

/-- A mark that the scan leaves out opens a literal, so that it is no bracket. -/
theorem surplus_mark {c : Char} (h : isKept [c] = false) : b.surplus [c] = 0 := by
  obtain rfl : c = '<' := by simpa [isKept] using h
  cases b <;> decide

/-- Rounds that add nothing add nothing together. -/
theorem surplus_keptText_flatMap {β : Type} {tokens : β → List (List Char)} {ts : List β}
    (h : ∀ t ∈ ts, b.surplus (keptText (tokens t)) = 0) :
    b.surplus (keptText (ts.flatMap tokens)) = 0 := by
  induction ts with
  | nil => rfl
  | cons t ts ih =>
    obtain ⟨ht, hts⟩ := List.forall_mem_cons.1 h
    rw [List.flatMap_cons, keptText_append, surplus_append, ht, ih hts]
    rfl

/-- **The tokens of a derivation have the surplus of its grammar**, literals left out. -/
theorem surplus_tokens : ∀ {α : Type} (g : Grammar α) {k : ℤ}, g.surplus? b = some k →
    ∀ t : g.Derivation, b.surplus (keptText (g.tokens t)) = k
  | _, .empty, k, h, _ => Option.some.inj h
  | _, .mark c, k, h, _ =>
    (surplus_keptText_singleton surplus_mark).trans (Option.some.inj h)
  | _, .script, k, h, run => by
    have hrun : b.surplus run.1 = 0 := surplus_script run.2.2
    exact (surplus_keptText_singleton fun _ => hrun).trans (hrun.trans (Option.some.inj h))
  | _, .literal, k, h, _ => Option.some.inj h
  | _, .finish, k, h, _ => Option.some.inj h
  | _, .seq first second, k, h, t => by
    rw [surplus?] at h
    split at h
    · next i j hi hj =>
      obtain rfl := Option.some.inj h
      rw [tokens, keptText_append, surplus_append, surplus_tokens first hi,
        surplus_tokens second hj]
    · cases h
  | _, .either first second, k, h, t => by
    rw [surplus?] at h
    split at h
    · next i j hi hj =>
      obtain ⟨rfl, hk⟩ := Option.ite_none_right_eq_some.1 h
      obtain rfl := Option.some.inj hk
      cases t with
      | inl t => exact surplus_tokens first hi t
      | inr t => exact surplus_tokens second hj t
    · cases h
  | _, .many body, k, h, ts => by
    rw [surplus?] at h
    obtain ⟨hbody, hk⟩ := Option.ite_none_right_eq_some.1 h
    obtain rfl := Option.some.inj hk
    exact surplus_keptText_flatMap fun t _ => surplus_tokens body hbody t
  | _, .named _ body, _, h, t => surplus_tokens body h t
  | _, .placed body, _, h, t => surplus_tokens body h t
  | _, .map _ body, _, h, t => surplus_tokens body h t

/-- **What a derivation generates has the surplus of its grammar** outside of literals. -/
theorem surplus_outsideLiterals {α : Type} {g : Grammar α} (hg : g.hasLiteralLists = true) {k : ℤ}
    (hk : g.surplus? b = some k) {t : g.Derivation} {cs : List Char} (h : Spaced (g.tokens t) cs) :
    b.surplus (outsideLiterals cs) = k := by
  have hbare : ∀ b : Bracket, isBare b.opening = true ∧ isBare b.closing = true := fun b => by
    cases b <;> decide
  rw [← surplus_filter (hbare b).1 (hbare b).2, ← surplus_tokens g hk t]
  exact congrArg b.surplus (bareText_eq h (tokens_bare g hg t).1)

end Grammar

namespace Productions

/-- **Brackets come in pairs** in every production. -/
theorem surplus?_expression (b : Bracket) : expression.surplus? b = some 0 := by
  cases b <;> rfl

end Productions

end Metalanguage
