import Formulary.Fields

/-! # Formulas

A formula is a tree of MathML nodes.  A token (`isToken`) holds text; every other node
holds children.  A node may carry a class, which says how it is spaced in a row of other
nodes, and may be *inferred*: an inferred row groups its children without being a node of
the result, so it dissolves when it is put into another node (`Formula.put`).

The kind of a node is its name among the elements of MathML, or any other value.  The text of a
token may still be missing, as that of a fence without a delimiter.  A formula can be written
once every text is there (`isSpelled`).

`token`, `node`, `inferredRow` and `fenced` build the nodes that readers of mathematics
need. -/

namespace Formulary

/-- The classes that govern spacing. -/
inductive TexClass where
  | none | ord | op | bin | rel | opening | closing | punct | inner | vcenter
deriving DecidableEq, Repr, Inhabited

/-- The written name of a class. -/
def TexClass.name : TexClass → String
  | none => "NONE"
  | ord => "ORD"
  | op => "OP"
  | bin => "BIN"
  | rel => "REL"
  | opening => "OPEN"
  | closing => "CLOSE"
  | punct => "PUNCT"
  | inner => "INNER"
  | vcenter => "VCENTER"

/-- Every class, in the order of their codes. -/
def TexClass.all : List TexClass :=
  [none, ord, op, bin, rel, opening, closing, punct, inner, vcenter]

/-- The class with a given name. -/
def TexClass.ofName? (name : String) : Option TexClass := all.find? fun c => c.name = name

/-- A MathML tree. -/
structure Formula where
  kind : Value
  children : List Formula := []
  attributes : Fields Value := []
  text : Value := ""
  texClass : Option TexClass := .none
  inferred : Bool := false
deriving Repr, Inhabited

namespace Formula

/-- The kinds of node that hold text. -/
def tokenKinds : List Value := ["mi", "mn", "mo", "mtext", "ms", "mspace"]

/-- Whether the node holds text rather than children. -/
def isToken (f : Formula) : Bool := f.kind ∈ tokenKinds

mutual

/-- Whether the text of every token that the formula shows is a text. -/
def isSpelled : Formula → Bool
  | ⟨kind, children, _, text, _, _⟩ =>
    if kind ∈ tokenKinds then text.text?.isSome else areSpelled children

/-- The same for the formulas of a list. -/
def areSpelled : List Formula → Bool
  | [] => true
  | f :: rest => f.isSpelled && areSpelled rest

end

/-- What a node puts into its parent: itself, or its children if it is an inferred row. -/
def contents (f : Formula) : List Formula :=
  if f.kind = "mrow" && f.inferred then f.children else [f]

/-- The node with further children. -/
def put (f : Formula) (children : List Formula) : Formula :=
  { f with children := f.children ++ children.flatMap contents }

/-- The node with an attribute set. -/
def setAttribute (f : Formula) (name : String) (value : Value) : Formula :=
  { f with attributes := f.attributes.set name value }

/-- A node that holds text. -/
def token (kind : Value) (text : Value) (attributes : Fields Value)
    (texClass : Option TexClass) : Formula :=
  { kind, attributes, text, texClass }

/-- A node that holds children. -/
def node (kind : Value) (children : List Formula) (attributes : Fields Value)
    (texClass : Option TexClass) : Formula :=
  put { kind, attributes, texClass } children

/-- A group of children that is no node of its own. -/
def inferredRow (children : List Formula) : Formula :=
  put { kind := "mrow", inferred := true } children

/-- The attributes of a fence. -/
def fence (stretchy : Bool) : Fields Value :=
  [("fence", .truth true), ("stretchy", .truth stretchy), ("symmetric", .truth true)]

/-- A row with a fence on either side of `inner`. -/
def fenced (stretchy : Bool) (opener : Value) (inner : Formula) (closer : Value) : Formula :=
  node "mrow"
    [token "mo" opener (fence stretchy) (some .opening), inner,
      token "mo" closer (fence stretchy) (some .closing)]
    [("open", opener), ("close", closer)] (some .inner)

/-- The kind under which markup and documents show the node. -/
def shownKind (f : Formula) : Value := if f.kind = "TeXAtom" then "mrow" else f.kind

/-- The attributes with which markup and documents show the node: an atom also shows its
class. -/
def shownAttributes (f : Formula) : Fields Value :=
  if f.kind = "TeXAtom" then
    f.attributes.set "data-texclass" (.text ((f.texClass.getD .ord).name))
  else f.attributes

end Formula

end Formulary
