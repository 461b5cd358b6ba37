import Formulary.Document.Html
import Formulary.Formula.Content
import Formulary.Text.Slice

/-! # Strings of a document

Mathematics is sought in the running text of a container.  The text is taken in *blocks*:
strings that stand next to each other, with some small elements between them read as text
of their own (`Extraction.included`), are one block, and every other element ends it.  A
block is a list of *pieces*, each the text of one place, so that an offset in the block's
string can be traced back to a place.

Elements are left out by their tags or their classes (`Extraction.enters`,
`Extraction.ignores`), and typeset mathematics always is. -/

namespace Formulary

/-- The text of one place of a document. -/
structure Piece where
  node : NodeId
  text : String
deriving DecidableEq, Repr, Inhabited

/-- The pieces of a maximal stretch of text. -/
abbrev Block := List Piece

/-- The length of a place in a string. -/
structure Run (α : Type) where
  node : α
  length : Int
deriving DecidableEq, Repr, Inhabited

namespace Block

/-- The text of a block. -/
def string (block : Block) : String := String.join (block.map Piece.text)

/-- The places of a block with the lengths of their texts. -/
def runs (block : Block) : List (Run NodeId) :=
  block.map fun piece => ⟨piece.node, piece.text.length⟩

end Block

/-- Which text of a document is searched. -/
structure Extraction where
  /-- Elements that are left out. -/
  skipped : List String := [
    "script", "noscript", "style", "textarea", "pre", "code", "annotation", "annotation-xml"]
  /-- Kinds of place that belong to the text around them, and the text they stand for. -/
  included : Fields String := [("br", "\n"), ("wbr", ""), ("#comment", "")]
  /-- Classes whose elements are left out. -/
  ignoreClasses : List String := ["mathscan-ignore"]
  /-- Classes whose elements are searched in any case. -/
  processClasses : List String := ["mathscan-process"]
deriving DecidableEq, Repr, Inhabited

namespace Extraction

/-- What follows each space of a text. -/
def spaceTails : List Char → List (List Char)
  | [] => []
  | c :: rest => if c = ' ' then rest :: spaceTails rest else spaceTails rest

/-- Whether a class name that has been read ends here: at a space, at the end of the text,
or at a line break that ends it. -/
def endsName (rest : List Char) : Bool := rest = [] || rest.head? = some ' ' || rest = ['\n']

/-- Whether one of some class names stands in the value of a `class` attribute. -/
def hasClass (names : List String) (value : String) : Bool :=
  (value.toList :: spaceTails value.toList).any fun tail =>
    names.any fun name => name ≠ "" && ((Text.after? name.toList tail).map endsName).getD false

/-- The classes of an element, as one text. -/
def classes (attributes : Fields Attribute) : String :=
  ((attributes.get? "class").map Attribute.value).getD ""

/-- Whether an element is marked as one to search in any case. -/
def processes (o : Extraction) (attributes : Fields Attribute) : Bool :=
  hasClass o.processClasses (classes attributes)

/-- Whether the content of an element is looked at: it is not typeset mathematics, and its
tag is not left out or its class overrides that. -/
def enters (o : Extraction) (tag : String) (attributes : Fields Attribute) : Bool :=
  (attributes.get? Formula.typesetMark).isNone && (o.processes attributes || tag ∉ o.skipped)

/-- Whether the text directly in an element is left out, given whether the text around the
element is. -/
def ignores (o : Extraction) (attributes : Fields Attribute) (ignored : Bool) : Bool :=
  (ignored || hasClass o.ignoreClasses (classes attributes)) && !o.processes attributes

/-- The piece that a place is in the text around it, if it belongs to that text. -/
def piece? (o : Extraction) (node : Node) : Option Piece :=
  if node.isText then some ⟨node.label, node.value⟩
  else (o.included.get? node.kind).map fun text => ⟨node.label, text⟩

mutual

/-- The blocks inside a place that ends the block around it. -/
def blocksIn (o : Extraction) (ignored : Bool) : Node → List Block
  | .string _ _ _ => []
  | .element _ tag attributes children =>
    if o.enters tag attributes then o.blocksAmong (o.ignores attributes ignored) [] children
    else []

/-- The blocks among some siblings, of which `pending` is the one that has begun. -/
def blocksAmong (o : Extraction) (ignored : Bool) (pending : Block) : List Node → List Block
  | [] => [pending]
  | node :: rest =>
    match o.piece? node with
    | some piece =>
      o.blocksAmong ignored (if ignored then pending else pending ++ [piece]) rest
    | none => pending :: (o.blocksIn ignored node ++ o.blocksAmong ignored [] rest)

end

/-- The blocks of a container that hold more than blanks, in document order. -/
def find (o : Extraction) (container : Node) : List Block :=
  (o.blocksAmong false [] container.children).filter fun block => !Text.isBlankText block.string

end Extraction

end Formulary
