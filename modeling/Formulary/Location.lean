import Formulary.Extraction

/-! # Locations

A location is an offset in a place of a document, with the delimiter that stands there.
`locate` traces an offset in a string back to a place, given the lengths of the places
that make up the string: an offset at the boundary of two places belongs to the earlier
one, and an offset past the last place has no place. -/

namespace Formulary

/-- An offset in a place, or nowhere. -/
structure Location (α : Type) where
  node : Option α
  offset : Int
  delimiter : String
deriving DecidableEq, Repr, Inhabited

/-- The location of an offset in the string that some places make up. -/
def locate {α : Type} (runs : List (Run α)) (index : Int) (delimiter : String) : Location α :=
  match runs with
  | [] => ⟨none, 0, delimiter⟩
  | run :: rest =>
    if index ≤ run.length then ⟨some run.node, index, delimiter⟩
    else locate rest (index - run.length) delimiter

end Formulary
