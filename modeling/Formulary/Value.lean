import Formulary.Text.Quoted

/-! # Values

Attributes of formulas and properties of frames hold small values: a text, an integer, a
truth value, nothing at all, or the infinite bound.  A value has three spellings:
`attributeText` inside markup, `plain` inside a sentence, and `literal` inside a listing
of fields, where texts are quoted. -/

namespace Formulary

/-- The value of an attribute or of a property. -/
inductive Value where
  | text (s : String)
  | integer (n : Int)
  | truth (b : Bool)
  | absent
  | infinite
deriving DecidableEq, Repr, Inhabited

instance : Coe String Value := ⟨.text⟩

namespace Value

/-- The value as a sentence shows it. -/
def plain : Value → String
  | text s => s
  | integer n => toString n
  | truth b => if b then "True" else "False"
  | absent => "None"
  | infinite => "inf"

/-- The value as markup shows it between quotes, before escaping. -/
def attributeText : Value → String
  | truth b => if b then "true" else "false"
  | v => v.plain

/-- The value as a listing of fields shows it. -/
def literal : Value → String
  | text s => Text.quoted s
  | v => v.plain

/-- Whether a value counts as "yes" where a flag is expected. -/
def holds : Value → Bool
  | text s => s ≠ ""
  | integer n => n ≠ 0
  | truth b => b
  | absent => false
  | infinite => true

/-- The text of a value that is one. -/
def text? : Value → Option String
  | text s => some s
  | _ => none

/-- The integer of a value that counts something. -/
def count? : Value → Option Int
  | integer n => some n
  | truth b => some (if b then 1 else 0)
  | _ => none

/-- Whether two values are the same, where a truth value is the same as the number it counts
as. -/
def agrees (a b : Value) : Bool :=
  a = b || (a.count?.isSome && a.count? = b.count?)

@[simp] theorem agrees_self (a : Value) : a.agrees a = true := by simp [agrees]

/-- Whether the count `n` has reached the bound `v`, for a value that is a bound. -/
def reached? (v : Value) (n : Int) : Option Bool :=
  match v with
  | infinite => some false
  | v => v.count?.map fun bound => decide (bound ≤ n)

end Value

end Formulary
