import Metalanguage.Grammar.Basic

/-!
# Grammar/Tree — the rules that a text is read by

A text is read by the rules of a grammar, one within the other. Beside the value of a text there is the
tree of these rules, each with the stretch of the text that it stands for: `Grammar.annotated` reads
the same texts as a grammar and returns both.
-/

namespace Metalanguage

/-! ## Stretches of a text -/

/-- What is left of a text behind its first `bytes`. -/
def dropBytes : List Char → Nat → List Char
  | [], _ => []
  | c :: cs, bytes => if bytes = 0 then c :: cs else dropBytes cs (bytes - c.utf8Size)

/-- The first `bytes` of a text. -/
def takeBytes : List Char → Nat → List Char
  | [], _ => []
  | c :: cs, bytes => if bytes = 0 then [] else c :: takeBytes cs (bytes - c.utf8Size)

/-- The stretch of a text. -/
def ByteRange.of (range : ByteRange) (text : List Char) : List Char :=
  takeBytes (dropBytes text range.start) (range.stop - range.start)

/-! ## Rules -/

/-- **A rule that was read**, where it was read, and the rules that were read within it. -/
inductive RuleTree
  | node (rule : Rule) (range : ByteRange) (inner : List RuleTree)

namespace RuleTree

def rule : RuleTree → Rule
  | node rule _ _ => rule

def range : RuleTree → ByteRange
  | node _ range _ => range

def inner : RuleTree → List RuleTree
  | node _ _ inner => inner

end RuleTree

namespace Grammar

/-- **The grammar of the same texts** that returns the named rules beside the value, in the order of
the text. -/
def annotated : {α : Type} → Grammar α → Grammar (α × List RuleTree)
  | _, .empty => .map (·, []) .empty
  | _, .mark c => .map (·, []) (.mark c)
  | _, .script => .map (·, []) .script
  | _, .literal => .map (·, []) .literal
  | _, .finish => .map (·, []) .finish
  | _, .seq first second =>
    .map (fun ((x, ts), (y, us)) => ((x, y), ts ++ us)) (.seq (annotated first) (annotated second))
  | _, .either first second => .either (annotated first) (annotated second)
  | _, .many body => .map (fun l => (l.map (·.1), l.flatMap (·.2))) (.many (annotated body))
  | _, .named rule body =>
    .map (fun (range, x, inner) => (x, [.node rule range inner]))
      (.placed (.named rule (annotated body)))
  | _, .placed body => .map (fun (range, x, ts) => ((range, x), ts)) (.placed (annotated body))
  | _, .map f body => .map (fun (x, ts) => (f x, ts)) (annotated body)

/-- The rules that a whole text is read by. -/
def trees? {α : Type} (g : Grammar α) (text : List Char) : Option (List RuleTree) :=
  (g.annotated.read (.start text)).map (·.1.2)

end Grammar

end Metalanguage
