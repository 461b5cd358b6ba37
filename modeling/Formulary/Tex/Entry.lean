import Formulary.Tex.Action

/-! # Written entries

An entry of a lexicon can be written down as a name and some values.  `Action.entry` writes
it, leaving out what was not said, and `Action.ofEntry?` reads it back. -/

namespace Formulary

namespace Action

/-- The written form of an action. -/
def entry : Action → String × List Value
  | identifier => ("variable", [])
  | number => ("number", [])
  | other => ("other", [])
  | openGroup => ("open_group", [])
  | closeGroup => ("close_group", [])
  | mathChar char none => ("math_char", [char])
  | mathChar char (some kind) => ("math_char", [char, kind])
  | mathOp char none => ("math_op", [char])
  | mathOp char (some (c, none)) => ("math_op", [char, .text c.name])
  | mathOp char (some (c, some stretchy)) => ("math_op", [char, .text c.name, stretchy])
  | left => ("left", [])
  | right => ("right", [])
  | begin => ("begin", [])
  | finish => ("end", [])
  | space width => ("space", [width])
  | linebreak => ("linebreak", [])
  | template text none => ("macro", [text])
  | template text (some arity) => ("macro", [text, arity])
  | illegalParameter => ("illegal_param", [])
  | braket opener closer stretchy limit => ("braket", [opener, closer, stretchy, limit])
  | bar => ("bar", [])
  | misused name details => (name, details)

/-- The names of meanings. -/
def names : List String := [
  "variable", "number", "other", "open_group", "close_group", "math_char", "math_op", "left",
  "right", "begin", "end", "space", "linebreak", "macro", "illegal_param", "braket", "bar"]

/-- The action with a given name and details that suit it. -/
def suited? (name : String) (details : List Value) : Option Action :=
  match name, details with
  | "variable", [] => some identifier
  | "number", [] => some number
  | "other", [] => some other
  | "open_group", [] => some openGroup
  | "close_group", [] => some closeGroup
  | "math_char", [char] => some (mathChar char none)
  | "math_char", [char, kind] => some (mathChar char (some kind))
  | "math_op", [char] => some (mathOp char none)
  | "math_op", [char, .text c] =>
    (TexClass.ofName? c).map fun c => mathOp char (some (c, none))
  | "math_op", [char, .text c, stretchy] =>
    (TexClass.ofName? c).map fun c => mathOp char (some (c, some stretchy))
  | "left", [] => some left
  | "right", [] => some right
  | "begin", [] => some begin
  | "end", [] => some finish
  | "space", [width] => some (space width)
  | "linebreak", [] => some linebreak
  | "macro", [text] => some (template text none)
  | "macro", [text, arity] => some (template text (some arity))
  | "illegal_param", [] => some illegalParameter
  | "braket", [opener, closer, stretchy, limit] => some (braket opener closer stretchy limit)
  | "bar", [] => some bar
  | _, _ => none

/-- Whether the second detail of an operator, if there is one, names a class. -/
def namesClass : List Value → Bool
  | _ :: .text c :: _ => (TexClass.ofName? c).isSome
  | _ :: _ :: _ => false
  | _ => true

/-- The action with a given written form.  Its name must be one of a meaning, and what stands
for the class of an operator must name one. -/
def ofEntry? (name : String) (details : List Value) : Option Action :=
  if name ∈ names && (name ≠ "math_op" || namesClass details) then
    some ((suited? name details).getD (misused name details))
  else none

end Action

end Formulary
