import Formulary.Document.Tree
import Formulary.Text.Escape

/-! # Documents as HTML

`Tree.htmlIn` writes a tree as HTML text.  Attributes are written in the order of their
names, elements that cannot have content as one tag, and the text inside scripts and
styles as it stands.  `Tree.value` is the text of a string, and the markup of an element;
`Tree.textContent` is the running text in a tree. -/

namespace Formulary.Tree

variable {α : Type}

/-- The elements that have no content and no end tag. -/
def voidTags : List String := [
  "area", "base", "br", "col", "embed", "hr", "img", "input", "keygen", "link", "menuitem",
  "meta", "param", "source", "track", "wbr",
  "basefont", "bgsound", "command", "frame", "image", "isindex", "nextid", "spacer"]

/-- The elements whose text is not escaped. -/
def rawTags : List String := ["script", "style"]

/-- The value of an attribute with its quotes: double ones, unless the value holds such and
no single one. -/
def htmlValue (value : String) : String :=
  let escaped := (Text.escape value).toList
  if '"' ∈ escaped then
    if '\'' ∈ escaped then
      "\"" ++ String.ofList (escaped.flatMap fun c => if c = '"' then "&quot;".toList else [c])
        ++ "\""
    else "'" ++ String.ofList escaped ++ "'"
  else "\"" ++ String.ofList escaped ++ "\""

/-- The attributes of a start tag. -/
def htmlAttributes (attributes : Fields Attribute) : String :=
  let ordered := attributes.mergeSort fun a b => !decide (b.1 < a.1)
  String.join (ordered.map fun (name, value) => " " ++ name ++ "=" ++ htmlValue value.written)

/-- A string inside the element `parent`. -/
def htmlString (parent : String) (kind : StringKind) (value : String) : String :=
  match kind with
  | .comment => "<!--" ++ value ++ "-->"
  | .cdata => "<![CDATA[" ++ value ++ "]]>"
  | .doctype => "<!DOCTYPE " ++ value ++ ">\n"
  | .declaration => "<?" ++ value ++ "?>"
  | .instruction => "<?" ++ value ++ ">"
  | _ => if parent ∈ rawTags then value else Text.escape value

mutual

/-- A tree inside the element `parent`, as HTML. -/
def htmlIn (parent : String) : Tree α → String
  | string _ kind value => htmlString parent kind value
  | element _ tag attributes children =>
    if children.isEmpty && tag ∈ voidTags then "<" ++ tag ++ htmlAttributes attributes ++ "/>"
    else
      "<" ++ tag ++ htmlAttributes attributes ++ ">" ++ htmlAll tag children ++ "</" ++ tag ++ ">"

/-- The trees of a list inside the element `parent`, as HTML. -/
def htmlAll (parent : String) : List (Tree α) → String
  | [] => ""
  | t :: rest => t.htmlIn parent ++ htmlAll parent rest

end

/-- The markup of the children of an element. -/
def innerHtml (tree : Tree α) : String := htmlAll tree.kind tree.children

/-- The text of a string; the markup of an element. -/
def value (tree : Tree α) : String :=
  match tree with
  | string _ _ value => value
  | element _ _ _ _ => tree.htmlIn ""

mutual

/-- The running text in a tree. -/
def textContent : Tree α → String
  | string label kind value =>
    let tree : Tree α := .string label kind value
    if tree.isText then tree.value else ""
  | element label tag attributes children =>
    let tree : Tree α := .element label tag attributes children
    if tree.isText then tree.value else textContentAll children

/-- The running text in the trees of a list. -/
def textContentAll : List (Tree α) → String
  | [] => ""
  | t :: rest => t.textContent ++ textContentAll rest

end

end Formulary.Tree
