import Formulary.Tex.Token

/-! # A place among tokens

A cursor is a list of tokens with the number of those that have been read.  Unlike the tokens that
are left, it shows where a reader stands, and it is still there when something goes wrong:
`Cursor.argument` takes an argument at a cursor, and what comes of it (`Taken`) includes the cursor
that is left, also by a failure. -/

namespace Formulary

/-- Tokens, the first of which have been read. -/
structure Cursor where
  tokens : List Token
  /-- How many of the tokens have been read. -/
  position : Nat
deriving DecidableEq, Repr, Inhabited

/-- What comes of taking an argument. -/
structure Taken where
  answer : Except TexCause (List Token)
  /-- The tokens afterwards, and how many of them have been read then. -/
  cursor : Cursor
deriving Repr

namespace Cursor

/-- The tokens that have not been read. -/
def unread (c : Cursor) : List Token := c.tokens.drop c.position

def next? (c : Cursor) : Option Token := c.tokens[c.position]?

/-- The tokens from the next one on, as far as the one with the number `j`, which is left out. -/
def upTo (c : Cursor) (j : Nat) : List Token := c.tokens.extract c.position j

/-- How many tokens stand before the brace that closes the last open one, if `depth` braces are open
before the tokens. -/
def closing? (depth : Int) : List Token → Option Nat
  | [] => none
  | t :: rest =>
    if t.kind = .openBrace then (closing? (depth + 1) rest).map (· + 1)
    else if t.kind = .closeBrace then
      if depth - 1 = 0 then some 0 else (closing? (depth - 1) rest).map (· + 1)
    else (closing? depth rest).map (· + 1)

/-- Takes the argument of a command: a group without its braces, or one token. -/
def argument (command : String) (c : Cursor) : Taken :=
  match c.next? with
  | none => { answer := .error (.missingArgument command), cursor := c }
  | some t =>
    if t.kind = .closeBrace then { answer := .error .extraCloseBrace, cursor := c }
    else if t.kind = .openBrace then
      match closing? 0 c.unread with
      | none => { answer := .error .missingCloseBrace, cursor := c }
      | some k => {
          answer := .ok (c.tokens.extract (c.position + 1) (c.position + k))
          cursor := { c with position := c.position + k + 1 } }
    else { answer := .ok [t], cursor := { c with position := c.position + 1 } }

variable {c : Cursor} {t : Token}

theorem unread_eq_nil (h : c.next? = none) : c.unread = [] :=
  List.drop_eq_nil_of_le (List.getElem?_eq_none_iff.1 h)

theorem unread_eq_cons (h : c.next? = some t) :
    c.unread = t :: c.tokens.drop (c.position + 1) := by
  obtain ⟨hlt, rfl⟩ := List.getElem?_eq_some_iff.1 h
  exact List.drop_eq_getElem_cons hlt

theorem upTo_add (c : Cursor) (n : Nat) : c.upTo (c.position + n) = c.unread.take n := by
  rw [upTo, List.extract_eq_take_drop, Nat.add_sub_cancel_left, unread]

end Cursor

end Formulary
