import Formulary.Document.HtmlPiece

/-! # Reading HTML

`Fragment.ofHtml?` reads HTML text as content: the pieces of the text (`HtmlPiece.ofChars?`)
are nested one after the other (`Nesting.add`).

Strings of nothing but ASCII spaces shrink to one line break or one space, except where
the text is preformatted; the text of some elements is of a kind of its own.  An element ends
with its start tag if the tag closes itself or the element cannot have content.  In the second
case one later end tag of that name is taken for that end and ends nothing. -/

namespace Formulary

/-- An element whose end tag has not been read, with its children so far, the last first. -/
structure OpenElement where
  tag : String
  attributes : List (String × String) := []
  children : List Fragment := []
deriving Repr, Inhabited

/-- The elements that are open, the innermost first, the whole document last. -/
structure Nesting where
  top : OpenElement
  outer : List OpenElement := []
  /-- The text read since the last tag. -/
  pending : List (List Char) := []
  /-- The tags of elements that ended with their start tag and may have an end tag yet. -/
  ended : List String := []
deriving Repr, Inhabited

namespace Nesting

/-- The tags of the open elements, the innermost first. -/
def tags (n : Nesting) : List String := n.top.tag :: n.outer.map OpenElement.tag

/-- The kind of text inside the open elements. -/
def textKind (n : Nesting) : StringKind :=
  (n.tags.findSome? fun tag => Fields.get? [("rt", StringKind.rubyText),
    ("rp", .rubyParenthesis), ("style", .stylesheet), ("script", .script),
    ("template", .template)] tag).getD .text

/-- White space that shrinks. -/
def isSpace (c : Char) : Bool :=
  c = ' ' || c = '\t' || c = '\n' || c = '\x0c' || c = '\r'

/-- A string as it is kept. -/
def kept (n : Nesting) (value : List Char) : String :=
  if value.all isSpace && !(n.tags.any fun tag => tag ∈ ["pre", "textarea"]) then
    if '\n' ∈ value then "\n" else " "
  else String.ofList value

/-- A fragment is added to the innermost open element. -/
def put (n : Nesting) (f : Fragment) : Nesting :=
  { n with top := { n.top with children := f :: n.top.children } }

/-- The text that was read is added as a string. -/
def flush (n : Nesting) : Nesting :=
  if n.pending = [] then n
  else { n.put (.string () n.textKind (n.kept n.pending.flatten)) with pending := [] }

/-- An open element as content. -/
def close (e : OpenElement) : Fragment := .build e.tag e.attributes e.children.reverse

/-- The innermost open elements and the others, after closing elements up to one with a given
tag. -/
def closeTo (tag : String) (top : OpenElement) : List OpenElement → OpenElement × List OpenElement
  | [] => (top, [])
  | parent :: rest =>
    let parent := { parent with children := close top :: parent.children }
    if top.tag = tag then (parent, rest) else closeTo tag parent rest

/-- All open elements but the whole document are closed. -/
def closeAll (top : OpenElement) : List OpenElement → List Fragment
  | [] => top.children.reverse
  | parent :: rest => closeAll { parent with children := close top :: parent.children } rest

/-- An element is opened. -/
def begin (n : Nesting) (tag : StartTag) : Nesting :=
  let n := n.flush
  { n with top := { tag := tag.name, attributes := tag.attributes }, outer := n.top :: n.outer }

/-- The innermost element with a given tag is closed, if one is open, and what is open in
it. -/
def finish (n : Nesting) (tag : String) : Nesting :=
  let n := n.flush
  if tag ∈ n.tags.dropLast then
    let (top, outer) := closeTo tag n.top n.outer
    { n with top, outer }
  else n

/-- The nesting after one more piece. -/
def add (n : Nesting) (piece : HtmlPiece) : Nesting :=
  match piece with
  | .text value => if value = [] then n else { n with pending := n.pending ++ [value] }
  | .special kind value =>
    let n := n.flush
    n.put (.string () kind (n.kept value))
  | .startTag tag =>
    let n := n.begin tag
    if tag.closed then n.finish tag.name
    else if tag.name ∈ Tree.voidTags then
      { n.finish tag.name with ended := n.ended ++ [tag.name] }
    else n
  | .endTag tag =>
    if tag ∈ n.ended then { n with ended := n.ended.erase tag } else n.finish tag

end Nesting

/-- The content that an HTML text describes, unless the text cannot be read. -/
def Fragment.ofHtml? (html : String) : Option (List Fragment) :=
  (HtmlPiece.ofChars? html.toList).map fun pieces =>
    let n := (pieces.foldl Nesting.add { top := { tag := documentTag } }).flush
    Nesting.closeAll n.top n.outer

end Formulary
