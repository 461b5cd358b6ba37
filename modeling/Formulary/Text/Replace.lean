/-! # Replacing a pattern in a text

`replaceAll pattern put s` replaces the occurrences of `pattern`, read from left to
right without overlap, by `put`.  The empty pattern occurs before every character and at the end. -/

namespace Formulary.Text

/-- Replacement of a non-empty pattern, written as its first letter and the others. -/
def replaceFrom (first : Char) (others put : List Char) (s : List Char) : List Char :=
  match s with
  | [] => []
  | c :: rest =>
    if c = first && others.isPrefixOf rest then
      put ++ replaceFrom first others put (rest.drop others.length)
    else c :: replaceFrom first others put rest
termination_by s.length
decreasing_by all_goals (simp only [List.length_cons, List.length_drop] at *; omega)

/-- Every occurrence of `pattern` in `s` replaced by `put`. -/
def replaceAll (pattern put s : String) : String :=
  match pattern.toList with
  | [] => String.ofList (put.toList ++ s.toList.flatMap fun c => c :: put.toList)
  | first :: others => String.ofList (replaceFrom first others put.toList s.toList)

end Formulary.Text
