/-!
# Ordered — sorted lists under a comparison

A sequence is sorted stably (`sort`), and a set is the strictly increasing list of its members. Two
collections of one list differ only in which of several equal entries they keep: `keepFirst` the
earliest, `keepLast` the latest.
-/

namespace Metalanguage.Ordered

variable {α : Type u} (cmp : α → α → Ordering)

/-! ## Sorting -/

/-- Puts `x` before the first entry that is not smaller — entries equal to `x` stay behind it. -/
def insertSorted (x : α) : List α → List α
  | [] => [x]
  | y :: l =>
    match cmp x y with
    | .gt => y :: insertSorted x l
    | _ => x :: y :: l

/-- The stable sort: equal entries keep the order they came in. -/
def sort (l : List α) : List α := l.foldr (insertSorted cmp) []

@[simp] theorem sort_nil : sort cmp [] = [] := rfl

@[simp] theorem sort_cons (x : α) (l : List α) :
    sort cmp (x :: l) = insertSorted cmp x (sort cmp l) := rfl

/-! ## Sets as increasing lists -/

/-- Adds `x` to an increasing list, unless an equal entry is there already. -/
def insertNew (x : α) : List α → List α
  | [] => [x]
  | y :: l =>
    match cmp x y with
    | .lt => x :: y :: l
    | .eq => y :: l
    | .gt => y :: insertNew x l

/-- The increasing list of the distinct entries; of equal entries the last one stays. -/
def keepLast (l : List α) : List α := l.foldr (insertNew cmp) []

/-- The increasing list of the distinct entries; of equal entries the first one stays. -/
def keepFirst (l : List α) : List α := l.foldl (fun kept x => insertNew cmp x kept) []

/-- The position of the entry equal to `x`. -/
def position? (x : α) (l : List α) : Option Nat := l.findIdx? (cmp x · == .eq)

/-- Whether an entry equal to `x` is there. -/
def has (x : α) (l : List α) : Bool := l.any (cmp x · == .eq)

@[simp] theorem keepLast_nil : keepLast cmp [] = [] := rfl

@[simp] theorem keepLast_cons (x : α) (l : List α) :
    keepLast cmp (x :: l) = insertNew cmp x (keepLast cmp l) := rfl

/-- Keeping the first of equals is keeping the last of them in the reversed list. -/
theorem keepFirst_eq_keepLast_reverse (l : List α) :
    keepFirst cmp l = keepLast cmp l.reverse := by
  simp [keepFirst, keepLast]

theorem insertNew_ne_nil (x : α) (l : List α) : insertNew cmp x l ≠ [] := by
  cases l with
  | nil => simp [insertNew]
  | cons y l => simp only [insertNew]; split <;> simp

/-! ## Neighbours -/

/-- The first two neighbours that stand in the relation `r`. -/
def neighbours? (r : α → α → Bool) : List α → Option (α × α)
  | x :: y :: l => if r x y then some (x, y) else neighbours? r (y :: l)
  | _ => none

end Metalanguage.Ordered
