import Formulary.Tex.Error
import Formulary.Text.Blank

/-! # Tokens of TeX

A text is cut into tokens from left to right: `lexeme?` says which token begins at the
head of a text and how long it is, `tokensFrom` repeats it, skipping the characters that
separate tokens.  A token is the longest one of its kind; a backslash takes either all
the letters that follow it or the one character that follows it. -/

namespace Formulary

/-- The kinds of token. -/
inductive TokenKind where
  /-- A backslash and letters. -/
  | controlWord
  /-- A backslash and one other character. -/
  | controlSymbol
  /-- `#` and a digit other than zero. -/
  | parameter
  | letter
  | number
  | openBrace
  | closeBrace
  /-- Any other character that is not blank. -/
  | other
deriving DecidableEq, Repr, Inhabited

/-- The name of a kind of token. -/
def TokenKind.name : TokenKind → String
  | controlWord => "CONTROL_WORD"
  | controlSymbol => "CONTROL_SYMBOL"
  | parameter => "PARAM"
  | letter => "LETTER"
  | number => "NUMBER"
  | openBrace => "LBRACE"
  | closeBrace => "RBRACE"
  | other => "OTHER"

/-- A token of TeX. -/
structure Token where
  kind : TokenKind
  text : String
  /-- Where the token starts, in characters. -/
  start : Nat
deriving DecidableEq, Repr, Inhabited

namespace Token

/-- Whether a token is a command. -/
def isCommand (t : Token) : Bool := t.kind = .controlWord || t.kind = .controlSymbol

/-- Characters that separate tokens and mean nothing else. -/
def isSeparator (c : Char) : Bool :=
  c = ' ' || c = '\t' || c = '\x0c' || c = '\r' || c = '\n'

/-- The number of further digits, after a digit. -/
def digitsAfter (rest : List Char) : Nat := (rest.takeWhile Char.isDigit).length

/-- The length of a point and digits, where a text begins so. -/
def fraction? : List Char → Option Nat
  | '.' :: d :: rest => if d.isDigit then some (2 + digitsAfter rest) else none
  | _ => none

/-- The token that a backslash begins, given what follows it. -/
def command? : List Char → Option (TokenKind × Nat)
  | [] => none
  | c :: rest =>
    if c.isAlpha then some (.controlWord, 1 + (rest.takeWhile Char.isAlpha).length)
    else some (.controlSymbol, 1)

/-- The kind of the token that begins with `c`, and how many of the characters after `c`
belong to it. -/
def lexeme? (c : Char) (rest : List Char) : Option (TokenKind × Nat) :=
  if c = '\\' then command? rest
  else if c = '{' then some (.openBrace, 0)
  else if c = '}' then some (.closeBrace, 0)
  else if c.isAlpha then some (.letter, 0)
  else if c.isDigit then
    let whole := digitsAfter rest
    some (.number, whole + (fraction? (rest.drop whole)).getD 0)
  else if c = '.' then
    match fraction? (c :: rest) with
    | some n => some (.number, n - 1)
    | none => some (.other, 0)
  else if c = '#' then
    match rest with
    | d :: _ => if '1' ≤ d && d ≤ '9' then some (.parameter, 1) else some (.other, 0)
    | [] => some (.other, 0)
  else if Text.isBlank c then none
  else some (.other, 0)

/-- The tokens of a text that starts at offset `start`. -/
def tokensFrom (start : Nat) (s : List Char) : Except TexError (List Token) :=
  match s with
  | [] => .ok []
  | c :: rest =>
    if isSeparator c then tokensFrom (start + 1) rest
    else
      match lexeme? c rest with
      | none => .error ⟨.unexpectedCharacter c, some start⟩
      | some (kind, more) =>
        match tokensFrom (start + 1 + more) (rest.drop more) with
        | .error e => .error e
        | .ok tokens => .ok (⟨kind, String.ofList (c :: rest.take more), start⟩ :: tokens)
termination_by s.length
decreasing_by all_goals (simp only [List.length_cons, List.length_drop] at *; omega)

end Token

/-- The tokens of a text. -/
def tokenize (text : String) : Except TexError (List Token) := Token.tokensFrom 0 text.toList

end Formulary
