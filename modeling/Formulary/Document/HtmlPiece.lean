import Formulary.Document.Html
import Formulary.Document.StartTag

/-! # Pieces of HTML

HTML text is cut into pieces: tags, comments and declarations, and the text between them with
its references resolved.  A pass (`HtmlPiece.pass`) reads pieces from left to right and stops
at something that does not end.  There are two passes: when the first one has stopped, the text
is known to be complete, and the second one takes what does not end as text. -/

namespace Formulary

/-- A piece of HTML text. -/
inductive HtmlPiece where
  | text (value : List Char)
  | startTag (tag : StartTag)
  | endTag (name : String)
  | special (kind : StringKind) (value : List Char)
deriving Repr, Inhabited

namespace HtmlPiece

/-! ### Finding the end of something -/

/-- The text after a mark in small letters, if the text begins with it in letters of any
size. -/
def afterMark? (mark s : List Char) : Option (List Char) :=
  if (s.take mark.length).map Char.toLower = mark then some (s.drop mark.length) else none

/-- The text after several marks with nothing but blanks between them. -/
def afterMarks? : List (List Char) → List Char → Option (List Char)
  | [], s => some s
  | [mark], s => afterMark? mark s
  | mark :: rest, s =>
    (afterMark? mark s).bind fun after => afterMarks? rest (after.dropWhile Text.isBlank)

/-- A text cut at the first place where marks stand, which belong to neither part. -/
def cutAt? (marks : List (List Char)) : List Char → Option (List Char × List Char)
  | [] => none
  | c :: rest =>
    match afterMarks? marks (c :: rest) with
    | some after => some ([], after)
    | none => (cutAt? marks rest).map fun (before, after) => (c :: before, after)

/-- The marks that end a comment. -/
def commentEnd : List (List Char) := [['-', '-'], ['>']]

/-- The marks that end an element whose text is raw. -/
def rawEnd (name : String) : List (List Char) := [['<', '/'], name.toList, ['>']]

/-! ### What begins with `<` -/

/-- What a text turns out to be. -/
inductive Reading where
  /-- Some pieces, with the text after them. -/
  | pieces (found : List HtmlPiece) (after : List Char)
  /-- Something that does not end. -/
  | unfinished
  /-- Something that cannot be read. -/
  | refused
deriving Repr, Inhabited

/-- One string of a given kind up to some marks. -/
def upTo (marks : List (List Char)) (kind : StringKind) (s : List Char) : Reading :=
  match cutAt? marks s with
  | some (value, after) => .pieces [special kind value] after
  | none => .unfinished

/-- A character of the name of a section or of an end tag, after the first one. -/
def isWordChar (c : Char) : Bool := c.isAlphanum || c = '-' || c = '_' || c = '.'

/-- The kind of a section with a given text, and the text that it holds. -/
def sectionString (value : List Char) : HtmlPiece :=
  match afterMark? "cdata[".toList value with
  | some inner => special .cdata inner
  | none => special .declaration value

/-- What a text after `<![` is, by the name at its head. -/
def readSection (s : List Char) : Reading :=
  let name := s.takeWhile isWordChar
  let marks? :=
    if String.ofList (name.map Char.toLower) ∈ ["temp", "cdata", "ignore", "include", "rcdata"]
    then some [[']'], [']'], ['>']]
    else if String.ofList (name.map Char.toLower) ∈ ["if", "else", "endif"] then some [[']'], ['>']]
    else none
  if s = [] then .unfinished
  else if !(s.head?.any Char.isAlpha) then .refused
  else if (s.drop name.length).dropWhile Text.isBlank = [] then .unfinished
  else
    match marks? with
    | none => .refused
    | some marks =>
      match cutAt? marks s with
      | some (value, after) => .pieces [sectionString value] after
      | none => .unfinished

/-- What a text after `<!` is, if it is no comment. -/
def readDeclaration (s : List Char) : Reading :=
  match s with
  | '[' :: rest => readSection rest
  | _ =>
    match afterMark? "doctype".toList s with
    | none => upTo [['>']] .comment s
    | some rest =>
      match cutAt? [['>']] rest with
      | some (value, after) => .pieces [special .doctype (value.drop 1)] after
      | none => .unfinished

/-- A character of the name of an end tag. -/
def isEndTagChar (c : Char) : Bool := isWordChar c || c = ':'

/-- The name of an end tag, of which the text after `</` up to the next `>` is given, if it is
one.  Blanks may stand around the name, and if none stands before it anything may follow. -/
def endTagName? (s : List Char) : Option String :=
  let bare := s.dropWhile Text.isBlank
  if bare.head?.any Char.isAlpha && ((bare.dropWhile isEndTagChar).all Text.isBlank) then
    some (StartTag.lowered (bare.takeWhile isEndTagChar))
  else if s.head?.any Char.isAlpha then some (StartTag.lowered (s.takeWhile StartTag.isNameChar))
  else none

/-- What a text after `</` is. -/
def readEndTag (s : List Char) : Reading :=
  match cutAt? [['>']] s with
  | none => .unfinished
  | some (inner, after) =>
    match endTagName? inner with
    | some name => .pieces [endTag name] after
    | none => .pieces (if inner = [] then [] else [special .comment inner]) after

/-- What a text after `<` is. -/
def readMarkup (s : List Char) : Reading :=
  match s with
  | [] => .unfinished
  | '/' :: rest => readEndTag rest
  | '!' :: '-' :: '-' :: rest => upTo commentEnd .comment rest
  | '!' :: rest => readDeclaration rest
  | '?' :: rest => upTo [['>']] .instruction rest
  | c :: rest =>
    if c.isAlpha then
      match StartTag.read (c :: rest) with
      | .tag tag after => .pieces [startTag tag] after
      | .text value after => .pieces [text value] after
      | .unfinished => .unfinished
      | .refused => .refused
    else .pieces [text ['<']] (c :: rest)

/-- What does not end, read as text: up to the next `>` and with it, or else up to the next
`<`, or else only the first `<`. -/
def readAsText (s : List Char) : List Char × List Char :=
  match cutAt? [['>']] s with
  | some (before, after) => ('<' :: before ++ ['>'], after)
  | none =>
    if '<' ∈ s then ('<' :: s.takeWhile (· ≠ '<'), s.dropWhile (· ≠ '<')) else (['<'], s)

/-! ### References -/

/-- What a text after `&` is: the characters that it stands for, the text after them, and
whether a pass goes on there.  A reference that may still go on stops a pass.  There is none of
this if the reference cannot be read. -/
def readReference? (final : Bool) (s : List Char) : Option (List Char × List Char × Bool) :=
  match s with
  | [] => some ([], ['&'], false)
  | '#' :: rest =>
    match Reference.codeInText? rest with
    | some (code, after) => code.number?.map fun n => ([Reference.ofCode n], after, true)
    | none => some (if ';' ∈ rest then (['&', '#'], rest, false) else ([], '&' :: s, false))
  | c :: rest => some <|
    if c.isAlpha then
      match Reference.wordInText? s with
      | some (name, after) => (Reference.ofWord name, after, true)
      | none => if final && rest = [] then ([], s, false) else ([], '&' :: s, false)
    else (['&'], s, true)

/-! ### Passes -/

/-- What a pass has read. -/
structure Pass where
  found : List HtmlPiece := []
  /-- The element whose raw text is being read. -/
  raw : Option String := none
  rest : List Char
deriving Repr, Inhabited

/-- A pass with more pieces before the others. -/
def Pass.after (p : Pass) (found : List HtmlPiece) : Pass := { p with found := found ++ p.found }

/-- The element whose raw text begins after some pieces. -/
def rawAfter (found : List HtmlPiece) : Option String :=
  match found with
  | [startTag tag] => if tag.name ∈ Tree.rawTags && !tag.closed then some tag.name else none
  | _ => none

/-- A pass over a text in at most `steps` steps; there is none over a text that cannot be read.
Every step takes at least one character. -/
def pass (final : Bool) (steps : Nat) (raw : Option String) (s : List Char) : Option Pass :=
  match steps, raw, s with
  | 0, raw, s => some { raw, rest := s }
  | _, raw, [] => some { raw, rest := [] }
  | steps + 1, some name, s =>
    match cutAt? (rawEnd name) s with
    | none => some { raw := some name, rest := s }
    | some (value, after) => (pass final steps none after).map (·.after [text value, endTag name])
  | steps + 1, none, c :: rest =>
    if c = '<' then
      match readMarkup rest with
      | .refused => none
      | .pieces found after => (pass final steps (rawAfter found) after).map (·.after found)
      | .unfinished =>
        if final then
          let (value, after) := readAsText rest
          (pass final steps none after).map (·.after [text value])
        else some { rest := c :: rest }
    else if c = '&' then
      match readReference? final rest with
      | none => none
      | some (value, after, goesOn) =>
        if goesOn then (pass final steps none after).map (·.after [text value])
        else some { found := [text value], rest := after }
    else
      let isPlain := fun c => c ≠ '<' && c ≠ '&'
      (pass final steps none (rest.dropWhile isPlain)).map
        (·.after [text (c :: rest.takeWhile isPlain)])

/-- The pieces of a text, unless it cannot be read.  Raw text that does not end is left out. -/
def ofChars? (s : List Char) : Option (List HtmlPiece) := do
  let first ← pass false s.length none s
  let last ← pass true first.rest.length first.raw first.rest
  return first.found ++ last.found ++ if last.raw.isNone then [text last.rest] else []

end HtmlPiece

end Formulary
