/-! # Ranges of code points

A class of characters is listed as closed ranges of code points in increasing order. -/

namespace Formulary.Text

/-- Whether a code point lies in one of some increasing ranges. -/
def inRanges (n : Nat) : List (Nat × Nat) → Bool
  | [] => false
  | (low, high) :: rest => if n < low then false else n ≤ high || inRanges n rest

end Formulary.Text
