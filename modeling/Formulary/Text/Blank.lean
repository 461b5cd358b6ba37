/-! # Blank characters

`isBlank` is the class of characters that separate words in running text: the ASCII
controls that move the cursor or separate records, and the spaces and line separators
of Unicode.  `strip` drops the blanks at both ends of a text, `isBlankText` says that
nothing else is in it, and `words` cuts it at its blanks.

The class is wider than `Char.isWhitespace`. -/

namespace Formulary.Text

/-- White space of running text. -/
def isBlank (c : Char) : Bool :=
  let n := c.toNat
  (0x09 ≤ n && n ≤ 0x0D) || (0x1C ≤ n && n ≤ 0x20) || n == 0x85 || n == 0xA0 || n == 0x1680 ||
    (0x2000 ≤ n && n ≤ 0x200A) || n == 0x2028 || n == 0x2029 || n == 0x202F || n == 0x205F ||
    n == 0x3000

/-- The text without the blanks at its two ends. -/
def strip (s : String) : String :=
  String.ofList (((s.toList.dropWhile isBlank).reverse.dropWhile isBlank).reverse)

/-- Nothing but blanks. -/
def isBlankText (s : String) : Bool := s.toList.all isBlank

/-- The words of a text, given the letters of the word being read. -/
def wordsFrom (word : List Char) : List Char → List String
  | [] => if word = [] then [] else [String.ofList word]
  | c :: rest =>
    if isBlank c then
      if word = [] then wordsFrom [] rest else String.ofList word :: wordsFrom [] rest
    else wordsFrom (word ++ [c]) rest

/-- The maximal runs of non-blank characters, in order. -/
def words (s : String) : List String := wordsFrom [] s.toList

end Formulary.Text
