import Formulary.Document.CharacterName
import Formulary.Text.Slice

/-! # Character references

HTML text may write a character as a reference: an ampersand, and then the code of the
character or a name for it.  References are read in two ways.  In running text a reference
ends where its digits or letters end, and what is not known stays as it stands, but for its
semicolon (`codeInText?`, `ofWord`).  In the value of an attribute a name may be followed by
anything at all, and the codes of some controls stand for nothing (`resolve?`).

A decimal code with too many digits cannot be read, and a text with one neither. -/

namespace Formulary.Reference

/-! ### Codes -/

/-- The characters that the codes from 128 to 159 stand for; a code without one stands for
itself. -/
def highControls : List Nat := [
  0x20AC, 0x81, 0x201A, 0x0192, 0x201E, 0x2026, 0x2020, 0x2021, 0x02C6, 0x2030, 0x0160, 0x2039,
  0x0152, 0x8D, 0x017D, 0x8F, 0x90, 0x2018, 0x2019, 0x201C, 0x201D, 0x2022, 0x2013, 0x2014,
  0x02DC, 0x2122, 0x0161, 0x203A, 0x0153, 0x9D, 0x017E, 0x0178]

/-- The character with a given code; what is the code of none stands for a mark in its
place. -/
def ofCode (n : Nat) : Char :=
  let n := if 0x80 ≤ n && n ≤ 0x9F then (highControls[n - 0x80]?).getD n else n
  if n ≠ 0 && n.isValidChar then Char.ofNat n else '\uFFFD'

/-- Whether a code stands for nothing in the value of an attribute: that of a control, or one
that is set aside for no character. -/
def isVoid (n : Nat) : Bool :=
  (0x01 ≤ n && n ≤ 0x08) || n == 0x0B || (0x0E ≤ n && n ≤ 0x1F) || n == 0x7F ||
    (0xFDD0 ≤ n && n ≤ 0xFDEF) || (n ≤ 0x10FFFF && 0xFFFE ≤ n % 0x10000)

/-- The value of a digit in some base. -/
def digitValue (c : Char) : Nat :=
  if c.isDigit then c.toNat - '0'.toNat else c.toLower.toNat - 'a'.toNat + 10

/-- The number that some digits spell. -/
def numberOf (base : Nat) (digits : List Char) : Nat :=
  digits.foldl (fun n c => n * base + digitValue c) 0

/-- A hexadecimal digit. -/
def isHexDigit (c : Char) : Bool :=
  c.isDigit || ('a' ≤ c.toLower && c.toLower ≤ 'f')

/-- The most digits that a decimal code may have. -/
def maxDigits : Nat := 4300

/-- A code as it is written. -/
structure Code where
  base : Nat
  digits : List Char
deriving DecidableEq, Repr

/-- The number that is written, unless it is a decimal one with too many digits. -/
def Code.number? (code : Code) : Option Nat :=
  if code.base = 10 && decide (maxDigits < code.digits.length) then none
  else some (numberOf code.base code.digits)

/-- The code at the head of a text, and the text after it: decimal digits, or hexadecimal ones
after the letter x. -/
def code? (s : List Char) : Option (Code × List Char) :=
  let (base, digits, after) :=
    match s with
    | 'x' :: rest | 'X' :: rest => (16, rest.takeWhile isHexDigit, rest.dropWhile isHexDigit)
    | _ => (10, s.takeWhile Char.isDigit, s.dropWhile Char.isDigit)
  if digits = [] then none else some (⟨base, digits⟩, after)

/-- The text after the semicolon that ends a reference, if one does. -/
def afterEnd (s : List Char) : List Char := (Text.after? [';'] s).getD s

/-! ### Names -/

/-- A letter, a digit, or one of the two signs that may stand inside a name. -/
def isNameChar (c : Char) : Bool := c.isAlphanum || c = '-' || c = '.'

/-- What an unfinished name stands for in the value of an attribute: the longest beginning of
it that is an old name of two letters or more stands for its character, of its first `n`
characters. -/
def longestName (name : List Char) : Nat → List Char
  | 0 | 1 => '&' :: name
  | n + 2 =>
    match CharacterName.old.get? (String.ofList (name.take (n + 2))) with
    | some c => c :: name.drop (n + 2)
    | none => longestName name (n + 1)

/-! ### Running text -/

/-- The code at the head of a text, and the text after it.  Something that is no digit must
follow. -/
def codeInText? (s : List Char) : Option (Code × List Char) :=
  match code? s with
  | some (code, c :: after) => if isHexDigit c then none else some (code, afterEnd (c :: after))
  | _ => none

/-- The name at the head of a text that begins with a letter, and the text after it.  Something
must follow that is neither a letter nor a digit. -/
def wordInText? (s : List Char) : Option (List Char × List Char) :=
  let name := s.takeWhile isNameChar
  if name.length < s.length then some (name, afterEnd (s.drop name.length))
  else
    match s.reverse.dropWhile Char.isAlphanum with
    | [] => none
    | _ :: before => some (before.reverse, s.drop before.length)

/-- What a name in running text stands for. -/
def ofWord (name : List Char) : List Char :=
  (CharacterName.find? (String.ofList name)).getD ('&' :: name)

/-! ### Values of attributes -/

/-- A character that may stand in a name in the value of an attribute. -/
def isLooseChar (c : Char) : Bool :=
  !(c = '\t' || c = '\n' || c = '\x0c' || c = ' ' || c = '<' || c = '&' || c = '#' || c = ';')

/-- What a code stands for in the value of an attribute, unless it cannot be read. -/
def ofCodeInValue? (code : Code) : Option (List Char) :=
  code.number?.map fun n => if isVoid n then [] else [ofCode n]

/-- What a name stands for in the value of an attribute, and the text after it, given the text
after the name. -/
def ofNameInValue (name after : List Char) : List Char × List Char :=
  match after, CharacterName.find? (String.ofList name) with
  | ';' :: rest, some chars => (chars, rest)
  | _, _ => (longestName name name.length, after)

/-- The value of an attribute with its references resolved, in at most as many steps as it has
characters, unless one cannot be read. -/
def resolveFrom? (steps : Nat) (s : List Char) : Option (List Char) :=
  match steps, s with
  | 0, s => some s
  | _, [] => some []
  | steps + 1, c :: rest =>
    let name := (rest.takeWhile isLooseChar).take 32
    if c ≠ '&' then (resolveFrom? steps rest).map (c :: ·)
    else if name ≠ [] then
      let (chars, after) := ofNameInValue name (rest.drop name.length)
      (resolveFrom? steps after).map (chars ++ ·)
    else
      match (Text.after? ['#'] rest).bind code? with
      | some (code, after) => do
        return (← ofCodeInValue? code) ++ (← resolveFrom? steps (afterEnd after))
      | none => (resolveFrom? steps rest).map (c :: ·)

/-- The value of an attribute with its references resolved, unless one cannot be read. -/
def resolve? (s : List Char) : Option (List Char) := resolveFrom? s.length s

end Formulary.Reference
