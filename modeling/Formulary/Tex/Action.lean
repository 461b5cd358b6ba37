import Formulary.Tex.Stack

/-! # Meanings of tokens

A `Lexicon` gives meanings to triggers: to commands by their names without the backslash,
or to whole character tokens.  A meaning is an `Action`, one of the things a reader can do
with a token.  A `Vocabulary` is a list of lexicons, of which the first that knows a
trigger decides (`Vocabulary.find?`). -/

namespace Formulary

/-- What a token means.  The details of a meaning are values: whether they suit it shows when
the meaning is carried out. -/
inductive Action where
  /-- An identifier spelled as the token. -/
  | identifier
  /-- A number spelled as the token. -/
  | number
  /-- An operator spelled as the token, of the class that its spelling has. -/
  | other
  | openGroup
  | closeGroup
  /-- A given character, as an identifier unless another kind is named. -/
  | mathChar (char : Value) (kind : Option Value)
  /-- A given operator, of class `ord` unless another is named; with the class may be said
  whether it stretches. -/
  | mathOp (char : Value) (style : Option (TexClass × Option Value))
  | left
  | right
  | begin
  | finish
  /-- Space of a given width. -/
  | space (width : Value)
  | linebreak
  /-- The text of a template with its parameters replaced by arguments, none unless a
  number of them is given. -/
  | template (text : Value) (arity : Option Value)
  | illegalParameter
  /-- A group between delimiters, with bars inside, up to a limit of them. -/
  | braket (opener closer stretchy limit : Value)
  | bar
  /-- A meaning with details that it does not take. -/
  | misused (name : String) (details : List Value)
deriving DecidableEq, Repr, Inhabited

/-- What a lexicon gives meanings to. -/
inductive Category where
  | command
  | character
  /-- Something that no token is. -/
  | foreign (name : String)
deriving DecidableEq, Repr, Inhabited

/-- The category with a given name. -/
def Category.ofName (name : String) : Category :=
  if name = "macro" then command
  else if name = "character" then character
  else foreign name

/-- Meanings for triggers of one category. -/
structure Lexicon where
  category : Category
  entries : Fields Action
deriving Repr, Inhabited

/-- Lexicons, of which an earlier one goes before a later one. -/
abbrev Vocabulary := List Lexicon

/-- The meaning of a trigger. -/
def Vocabulary.find? (vocabulary : Vocabulary) (category : Category) (trigger : String) :
    Option Action :=
  match vocabulary with
  | [] => none
  | lexicon :: rest =>
    if lexicon.category = category then
      match lexicon.entries.get? trigger with
      | some action => some action
      | none => Vocabulary.find? rest category trigger
    else Vocabulary.find? rest category trigger

/-! ### The basic vocabulary -/

namespace Vocabulary

/-- The class of an operator by its spelling. -/
def operatorClass (spelling : String) : TexClass :=
  if spelling ∈ ["+", "-", "*", "/"] then .bin
  else if spelling ∈ ["=", "<", ">", ":"] then .rel
  else if spelling ∈ ["(", "["] then .opening
  else if spelling ∈ [")", "]"] then .closing
  else if spelling ∈ [",", ";"] then .punct
  else .ord

/-- The tokens that may follow a fence command, and the fences they stand for. -/
def delimiters : Fields String := [
  ("(", "("), (")", ")"), ("[", "["), ("]", "]"), ("<", "⟨"), (">", "⟩"),
  ("/", "/"), ("|", "|"), (".", ""),
  ("\\\x7b", "\x7b"), ("\\\x7d", "\x7d"), ("\\|", "‖"),
  ("\\langle", "⟨"), ("\\rangle", "⟩"),
  ("\\lbrace", "\x7b"), ("\\rbrace", "\x7d"),
  ("\\vert", "|"), ("\\Vert", "‖"),
  ("\\lvert", "|"), ("\\rvert", "|")]

/-- Greek letters by name. -/
def greek : Fields String := [
  ("alpha", "α"), ("beta", "β"), ("gamma", "γ"), ("delta", "δ"),
  ("epsilon", "ϵ"), ("theta", "θ"), ("lambda", "λ"), ("mu", "μ"),
  ("pi", "π"), ("rho", "ρ"), ("sigma", "σ"), ("tau", "τ"),
  ("phi", "ϕ"), ("psi", "ψ"), ("omega", "ω"),
  ("Gamma", "Γ"), ("Delta", "Δ"), ("Theta", "Θ"), ("Lambda", "Λ"),
  ("Pi", "Π"), ("Sigma", "Σ"), ("Phi", "Φ"), ("Psi", "Ψ"), ("Omega", "Ω")]

/-- The commands that every reader knows. -/
def baseCommands : Lexicon where
  category := .command
  entries := [
    ("left", .left), ("right", .right), ("begin", .begin), ("end", .finish),
    ("\\", .linebreak),
    ("\x7b", .mathOp "\x7b" (some (.opening, some (.truth false)))),
    ("\x7d", .mathOp "\x7d" (some (.closing, some (.truth false)))),
    ("|", .mathOp "‖" (some (.ord, some (.truth false)))),
    (",", .space "0.167em"), (";", .space "0.278em"), (" ", .space "0.25em"),
    ("langle", .mathOp "⟨" (some (.opening, some (.truth false)))),
    ("rangle", .mathOp "⟩" (some (.closing, some (.truth false)))),
    ("lbrace", .mathOp "\x7b" (some (.opening, some (.truth false)))),
    ("rbrace", .mathOp "\x7d" (some (.closing, some (.truth false)))),
    ("vert", .mathOp "|" (some (.ord, some (.truth false)))),
    ("Vert", .mathOp "‖" (some (.ord, some (.truth false)))),
    ("mid", .mathOp "∣" (some (.rel, none))),
    ("in", .mathOp "∈" (some (.rel, none))),
    ("le", .mathOp "≤" (some (.rel, none))),
    ("ge", .mathOp "≥" (some (.rel, none))),
    ("ne", .mathOp "≠" (some (.rel, none))),
    ("cdot", .mathOp "⋅" (some (.bin, none))),
    ("times", .mathOp "×" (some (.bin, none)))] ++
    greek.map fun (name, char) => (name, .mathChar (.text char) none)

/-- The characters that every reader knows. -/
def baseCharacters : Lexicon where
  category := .character
  entries := [("\x7b", .openGroup), ("\x7d", .closeGroup), ("#", .illegalParameter)]

/-- The vocabulary that every reader has. -/
def base : Vocabulary := [baseCharacters, baseCommands]

/-- The commands of bra-kets and sets. -/
def braketCommands : Lexicon where
  category := .command
  entries := [
    ("bra", .template "\x7b\\langle \x7b#1\x7d \\vert\x7d" (some (.integer 1))),
    ("ket", .template "\x7b\\vert \x7b#1\x7d \\rangle\x7d" (some (.integer 1))),
    ("braket", .braket "⟨" "⟩" (.truth false) .infinite),
    ("set", .braket "\x7b" "\x7d" (.truth false) (.integer 1)),
    ("Bra", .template "\\left\\langle \x7b#1\x7d \\right\\vert" (some (.integer 1))),
    ("Ket", .template "\\left\\vert \x7b#1\x7d \\right\\rangle" (some (.integer 1))),
    ("Braket", .braket "⟨" "⟩" (.truth true) .infinite),
    ("Set", .braket "\x7b" "\x7d" (.truth true) (.integer 1)),
    ("ketbra",
      .template "\x7b\\vert \x7b#1\x7d \\rangle\\langle \x7b#2\x7d \\vert\x7d" (some (.integer 2))),
    ("Ketbra",
      .template
        "\\left\\vert \x7b#1\x7d \\right\\rangle\\left\\langle \x7b#2\x7d \\right\\vert"
        (some (.integer 2))),
    ("|", .bar)]

/-- The characters of bra-kets and sets. -/
def braketCharacters : Lexicon where
  category := .character
  entries := [("|", .bar)]

end Vocabulary

/-! ### Dialects -/

/-- What a reader of TeX knows: the meanings of tokens, and the kinds of frame. -/
structure Dialect where
  vocabulary : Vocabulary
  kinds : FrameKinds
deriving Repr, Inhabited

namespace Dialect

/-- The dialect without any package. -/
def base : Dialect := ⟨.base, .base⟩

/-- The dialect with one more lexicon, which goes before the others. -/
def addLexicon (d : Dialect) (lexicon : Lexicon) : Dialect :=
  { d with vocabulary := lexicon :: d.vocabulary }

/-- The dialect with one more kind of frame. -/
def addKind (d : Dialect) (kind : FrameKind) : Dialect :=
  { d with kinds := d.kinds.register kind }

/-- The dialect with bra-kets and sets. -/
def addBraket (d : Dialect) : Dialect :=
  ((d.addKind FrameKinds.braketKind).addLexicon Vocabulary.braketCommands).addLexicon
    Vocabulary.braketCharacters

/-- The package with a given name. -/
def package? (name : String) : Option (Dialect → Dialect) :=
  if name = "braket" then some addBraket else none

/-- A dialect with packages, or the name of the first that is unknown. -/
def addPackages (d : Dialect) (names : List String) : Except String Dialect :=
  match names with
  | [] => .ok d
  | name :: rest =>
    match package? name with
    | none => .error name
    | some add => addPackages (add d) rest

/-- The dialect of some packages, or the name of the first that is unknown. -/
def ofPackages (names : List String) : Except String Dialect := base.addPackages names

/-- The dialect of TeX that is read unless packages are named. -/
def usual : Dialect := base.addBraket

end Dialect

end Formulary
