import Formulary.Document.Attribute

/-! # Document trees

A document is a tree of elements and strings.  `Tree α` carries a label of type `α` at
every place: a `Node` is a place of a document and is labelled with its identity, which
stays with it wherever it is moved; a `Fragment` is content alone.

`subtrees` lists the places of a tree in document order, and `splice` puts other places
where one is. -/

namespace Formulary

/-- What a string in a document is. -/
inductive StringKind where
  | text
  | comment
  | cdata
  | doctype
  | declaration
  | instruction
  | script
  | stylesheet
  | template
  | rubyText
  | rubyParenthesis
deriving DecidableEq, Repr, Inhabited

/-- The name of a kind of string among the names of elements. -/
def StringKind.name : StringKind → String
  | text => "#text"
  | comment => "#comment"
  | cdata => "#cdata"
  | doctype => "#doctype"
  | declaration => "#declaration"
  | instruction => "#processinginstruction"
  | script => "#script"
  | stylesheet => "#stylesheet"
  | template => "#templatestring"
  | rubyText => "#rubytextstring"
  | rubyParenthesis => "#rubyparenthesisstring"

/-- A tree of elements and strings, with a label at every place. -/
inductive Tree (α : Type) where
  | string (label : α) (kind : StringKind) (value : String)
  | element (label : α) (tag : String) (attributes : Fields Attribute) (children : List (Tree α))
deriving Repr, Inhabited

/-- The identity of a place of a document. -/
abbrev NodeId := Nat

/-- A place of a document. -/
abbrev Node := Tree NodeId

/-- Content without a place. -/
abbrev Fragment := Tree Unit

/-- The tag of the place that holds a whole document. -/
def documentTag : String := "[document]"

namespace Tree

variable {α β : Type}

/-- The label at the top. -/
def label : Tree α → α
  | string label _ _ => label
  | element label _ _ _ => label

/-- The tag of an element, or the name of a kind of string. -/
def kind : Tree α → String
  | string _ kind _ => kind.name
  | element _ tag _ _ => tag

/-- The children of an element; a string has none. -/
def children : Tree α → List (Tree α)
  | string _ _ _ => []
  | element _ _ _ children => children

/-- An element with further children; a string stays as it is. -/
def put (tree : Tree α) (children : List (Tree α)) : Tree α :=
  match tree with
  | string label kind value => .string label kind value
  | element label tag attributes old => .element label tag attributes (old ++ children)

/-- An element without content that stands for a tree where it cannot stand itself. -/
def stub (tree : Tree α) : Tree α := .element tree.label tree.kind [] []

/-- Whether the tree is running text.  An element counts as such if it has the name of it. -/
def isText (tree : Tree α) : Bool := tree.kind = StringKind.text.name

/-- Whether the tree is an element. -/
def isElement : Tree α → Bool
  | string _ _ _ => false
  | element _ _ _ _ => true

/-- The value of the attribute of an element under a name. -/
def attribute? (tree : Tree α) (name : String) : Option String :=
  match tree with
  | string _ _ _ => none
  | element _ _ attributes _ => (attributes.get? name).map Attribute.value

mutual

/-- The tree with other labels. -/
def map (f : α → β) : Tree α → Tree β
  | string label kind value => .string (f label) kind value
  | element label tag attributes children =>
    .element (f label) tag attributes (mapAll f children)

/-- The trees of a list with other labels. -/
def mapAll (f : α → β) : List (Tree α) → List (Tree β)
  | [] => []
  | t :: rest => t.map f :: mapAll f rest

end

/-- The content of a place. -/
def fragment (node : Node) : Fragment := node.map fun _ => ()

mutual

/-- The tree and all trees below it, in document order. -/
def subtrees : Tree α → List (Tree α)
  | string label kind value => [.string label kind value]
  | element label tag attributes children =>
    .element label tag attributes children :: subtreesAll children

/-- The trees of a list and all trees below them, in document order. -/
def subtreesAll : List (Tree α) → List (Tree α)
  | [] => []
  | t :: rest => t.subtrees ++ subtreesAll rest

end

/-- The labels in a tree, in document order. -/
def labels (tree : Tree α) : List α := tree.subtrees.map label

/-- The elements below a tree with a given tag, in document order. -/
def descendants (tree : Tree α) (tag : String) : List (Tree α) :=
  (subtreesAll tree.children).filter fun t => t.isElement && t.kind = tag

/-- The children of a given kind, each before the elements of that tag below it. -/
def placesNamed (tree : Tree α) (kind : String) : List (Tree α) :=
  tree.children.flatMap fun child =>
    (if child.kind = kind then [child] else []) ++
      if child.isText then [] else child.descendants kind

section Splice

variable [DecidableEq α]

mutual

/-- The tree with other trees in place of the one labelled `target`, if that one is below
the top. -/
def splice (target : α) (put : Tree α → List (Tree α)) : Tree α → Tree α
  | string label kind value => .string label kind value
  | element label tag attributes children =>
    .element label tag attributes (spliceAll target put children)

/-- The list of trees with other trees in place of the one labelled `target`. -/
def spliceAll (target : α) (put : Tree α → List (Tree α)) : List (Tree α) → List (Tree α)
  | [] => []
  | t :: rest =>
    (if t.label = target then put t else [t.splice target put]) ++ spliceAll target put rest

end

/-- The tree with the one labelled `target` changed. -/
def modify (target : α) (f : Tree α → Tree α) (tree : Tree α) : Tree α :=
  if tree.label = target then f tree else tree.splice target fun t => [f t]

/-- The tree `host` with another one as the last child of its element labelled `parent`. -/
def graftLast (parent : α) (tree host : Tree α) : Tree α :=
  host.modify parent fun t => t.put [tree]

/-- The tree `host` with another one immediately before the one labelled `next`, if that one is
below the top. -/
def graftBefore (next : α) (tree host : Tree α) : Tree α :=
  host.splice next fun t => [tree, t]

/-- Whether a tree labelled `target` is below the top. -/
def holds (tree : Tree α) (target : α) : Bool :=
  (subtreesAll tree.children).any fun t => t.label = target

/-- The tree labelled `target`, if there is one. -/
def find? (tree : Tree α) (target : α) : Option (Tree α) :=
  tree.subtrees.find? fun t => t.label = target

mutual

/-- The indices of the children that lead to the tree labelled `target`. -/
def pathTo? (target : α) : Tree α → Option (List Nat)
  | string label _ _ => if label = target then some [] else none
  | element label _ _ children =>
    if label = target then some [] else pathToAll? target 0 children

/-- The same for a list of trees, of which the first is child number `index`. -/
def pathToAll? (target : α) (index : Nat) : List (Tree α) → Option (List Nat)
  | [] => none
  | t :: rest =>
    match t.pathTo? target with
    | some path => some (index :: path)
    | none => pathToAll? target (index + 1) rest

end

end Splice

/-- The tree at the end of a path of child indices. -/
def at? (tree : Tree α) (path : List Nat) : Option (Tree α) :=
  match path with
  | [] => some tree
  | i :: rest => tree.children[i]?.bind fun child => child.at? rest

end Tree

/-! ### Making content -/

namespace Fragment

/-- The attributes of an element that hold a list of words. -/
def wordLists (tag : String) : List String :=
  ["class", "accesskey", "dropzone"] ++
    if tag = "a" || tag = "link" then ["rel", "rev"]
    else if tag = "td" || tag = "th" then ["headers"]
    else if tag = "form" then ["accept-charset"]
    else if tag = "object" then ["archive"]
    else if tag = "area" then ["rel"]
    else if tag = "icon" then ["sizes"]
    else if tag = "iframe" then ["sandbox"]
    else if tag = "output" then ["for"]
    else []

/-- An element.  A list of words among its attributes is kept with single spaces. -/
def build (tag : String) (attributes : List (String × String)) (children : List Fragment) :
    Fragment :=
  Tree.element () tag
    (Attribute.ofValues tag ((Fields.ofPairs attributes).map fun (name, value) =>
      (name, if name ∈ wordLists (Text.lowercase tag) then " ".intercalate (Text.words value)
        else value)))
    children

/-- Running text. -/
def text (value : String) : Fragment := Tree.string () .text value

end Fragment

end Formulary
