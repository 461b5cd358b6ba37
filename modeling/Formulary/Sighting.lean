/-! # Sightings

A sighting is a piece of mathematics seen in a list of strings: its text, the delimiters
around it, the string that holds it, and the offsets at which it starts and stops there,
delimiters included. -/

namespace Formulary

/-- Mathematics seen between two offsets of one of several strings. -/
structure Sighting where
  math : String
  opener : String
  closer : String
  /-- The index of the string. -/
  string : Int
  start : Int
  stop : Int
  display : Bool
deriving DecidableEq, Repr, Inhabited

end Formulary
