/-! # Offsets in a text

Offsets count characters.  An offset below zero counts from the end, and one past an end
stands for that end; `cutPoint` is the resulting position, which never leaves the text. -/

namespace Formulary.Text

/-- The position in a text of `length` characters that the offset `n` stands for. -/
def cutPoint (length : Nat) (n : Int) : Nat :=
  if n < 0 then (length + n).toNat else min n.toNat length

theorem cutPoint_natCast (length k : Nat) : cutPoint length k = min k length := by
  simp only [cutPoint]
  split <;> omega

/-- The text before and the text after the offset `n`. -/
def cut (s : String) (n : Int) : String × String :=
  let point := cutPoint s.length n
  (String.ofList (s.toList.take point), String.ofList (s.toList.drop point))

/-- The rest of a text after what it begins with, if it begins so. -/
def after? : List Char → List Char → Option (List Char)
  | [], s => some s
  | _ :: _, [] => none
  | p :: ps, c :: s => if p = c then after? ps s else none

/-- The index from the start that the index `n` of a list of a given length stands for, a
negative one counting from the end. -/
def indexIn? (length : Nat) (n : Int) : Option Nat :=
  let index := if n < 0 then n + length else n
  if 0 ≤ index ∧ index < length then some index.toNat else none

/-- The element at index `n` of a list, a negative index counting from the end. -/
def atIndex? {α : Type} (xs : List α) (n : Int) : Option α :=
  (indexIn? xs.length n).bind fun index => xs[index]?

end Formulary.Text
