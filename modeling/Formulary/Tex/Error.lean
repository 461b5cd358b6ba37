import Formulary.Fields

/-! # Errors of TeX mathematics

An error has a cause, which fixes its identifier and its message, and the offset at which
it arose, where one is known. -/

namespace Formulary

/-- What is wrong with a piece of TeX. -/
inductive TexCause where
  /-- A character that begins no token. -/
  | unexpectedCharacter (c : Char)
  /-- A command without a meaning. -/
  | undefinedCommand (command : String)
  /-- The input ends where a command takes an argument. -/
  | missingArgument (command : String)
  /-- A closing brace where a command takes an argument. -/
  | extraCloseBrace
  /-- An argument whose opening brace is never closed. -/
  | missingCloseBrace
  /-- A fence command without a delimiter. -/
  | missingDelimiter (command : String)
  /-- More expansions than allowed. -/
  | tooManyExpansions
  /-- A parameter outside a template, or beyond the arguments. -/
  | illegalParameter
  /-- A frame of a kind that is not registered. -/
  | unknownKind (kind : String)
  /-- The input ends inside a frame. -/
  | unterminated (kind : String) (opened : Fields Value)
  /-- A closing item that the current frame does not accept. -/
  | unexpectedClose (kind : String) (closer : Value) (wording : Option String)
  /-- An error raised by a filter. -/
  | raised (id message : String)
deriving DecidableEq, Repr

namespace TexCause

/-- The identifier of a cause. -/
def id : TexCause → String
  | unexpectedCharacter _ => "LexError"
  | undefinedCommand _ => "UndefinedControlSequence"
  | missingArgument _ => "MissingArgFor"
  | extraCloseBrace => "ExtraCloseMissingOpen"
  | missingCloseBrace => "MissingCloseBrace"
  | missingDelimiter _ => "MissingOrUnrecognizedDelim"
  | tooManyExpansions => "MaxMacroSub"
  | illegalParameter => "IllegalMacroParam"
  | unknownKind _ => "UnknownStackItem"
  | unterminated _ _ => "UnterminatedFrame"
  | unexpectedClose _ _ _ => "UnexpectedCloseContext"
  | raised id _ => id

/-- The message of a cause. -/
def message : TexCause → String
  | unexpectedCharacter c => "Unexpected character " ++ Text.quoted (String.singleton c)
  | undefinedCommand command => "Undefined control sequence " ++ command
  | missingArgument command => "Missing argument for " ++ command
  | extraCloseBrace => "Extra close brace or missing open brace"
  | missingCloseBrace => "Missing close brace"
  | missingDelimiter command => "Missing or unrecognized delimiter for " ++ command
  | tooManyExpansions =>
    "Maximum macro substitution count exceeded; is there a recursive macro call?"
  | illegalParameter => "Illegal macro parameter reference"
  | unknownKind kind => "Unknown stack item kind '" ++ kind ++ "'"
  | unterminated kind opened => "Missing close for '" ++ kind ++ "' opened with " ++ opened.literal
  | unexpectedClose kind closer wording =>
    match wording with
    | some text => if text = "" then usual kind closer else text
    | none => usual kind closer
  | raised _ message => message
where
  /-- The wording for a frame that has none of its own. -/
  usual (kind : String) (closer : Value) : String :=
    "Unexpected '" ++ closer.plain ++ "' in '" ++ kind ++ "'"

end TexCause

/-- An error of one piece of TeX. -/
structure TexError where
  cause : TexCause
  offset : Option Int := none
deriving DecidableEq, Repr

namespace TexError

/-- The identifier of an error. -/
def id (e : TexError) : String := e.cause.id

/-- The message of an error, without its place. -/
def message (e : TexError) : String := e.cause.message

/-- The error as one line: the message, and the place if it is known. -/
def line (e : TexError) : String :=
  match e.offset with
  | none => e.message
  | some offset => e.message ++ " (at offset " ++ toString offset ++ ")"

/-- The error placed at `offset`, unless it has a place already. -/
def locate (e : TexError) (offset : Int) : TexError := { e with offset := some (e.offset.getD offset) }

end TexError

end Formulary
