import Formulary.Document.Html
import Formulary.Formula.Basic

/-! # Formulas as document content

`Formula.fragment` is the content that shows a formula in a document: every node is an
element, an inferred row too, and the text of a token is its only string.
`Formula.ofContent` reads MathML content as a formula.  Reading keeps a fixed list of
attributes (`readAttributes`), the stripped text of tokens, and the elements among the
children of every other node. -/

namespace Formulary.Formula

/-- The attributes with which a document shows a node. -/
def contentAttributes (f : Formula) : List (String × String) :=
  f.shownAttributes.map fun (name, value) => (name, value.attributeText)

mutual

/-- The content that shows a formula. -/
def fragment : Formula → Fragment
  | ⟨kind, children, attributes, text, texClass, inferred⟩ =>
    let f : Formula := ⟨kind, children, attributes, text, texClass, inferred⟩
    .build f.shownKind.plain f.contentAttributes
      (if f.isToken then if text.holds then [.text text.plain] else [] else fragmentAll children)

/-- The content that shows the formulas of a list. -/
def fragmentAll : List Formula → List Fragment
  | [] => []
  | f :: rest => f.fragment :: fragmentAll rest

end

/-- The attribute that marks the outermost element of typeset mathematics with the name of
its source, so that it is not searched again. -/
def typesetMark : String := "data-mathscan"

/-- The attributes that a formula read from a document keeps, in the order in which it
keeps them. -/
def readAttributes : List String := [
  "display", "mathvariant", "stretchy", "fence", "separator", "symmetric",
  "form", "open", "close", "linebreak", "width", "lspace", "rspace"]

/-- The attributes of a formula read from an element. -/
def attributesOf {α : Type} (tree : Tree α) : Fields Value :=
  readAttributes.filterMap fun name =>
    (tree.attribute? name).map fun value => (name, .text value)

/-- Whether a child of an element is left out when the element is read. -/
def isSkipped {α : Type} (tree : Tree α) : Bool := tree.kind.toList.head? = some '#'

mutual

/-- The formula that a MathML tree stands for. -/
def ofContent {α : Type} : Tree α → Formula
  | .string _ kind _ => .node (.text kind.name) [] [] none
  | .element label tag attributes children =>
    let tree : Tree α := .element label tag attributes children
    if .text tag ∈ tokenKinds then
      .token (.text tag) (.text (Text.strip tree.textContent)) (attributesOf tree) none
    else .node (.text tag) (ofContentAll children) (attributesOf tree) none

/-- The formulas that the children of an element stand for. -/
def ofContentAll {α : Type} : List (Tree α) → List Formula
  | [] => []
  | t :: rest => if isSkipped t then ofContentAll rest else ofContent t :: ofContentAll rest

end

end Formulary.Formula
