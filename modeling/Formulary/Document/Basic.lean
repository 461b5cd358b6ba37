import Formulary.Document.Html
import Formulary.Failure

/-! # Documents

A document is a tree of places, and besides it the trees that have been made for it or
taken out of it and are not part of it now: a place keeps its identity while it is moved
about.  This module looks at documents; `Formulary.Document.Edit` changes them.

A place may have been put somewhere below itself.  What it holds then has no end
(`Document.isEndless`), and it is a tree beside the document in which a place without content,
with its identity, says where it stands again. -/

namespace Formulary

/-- A document and the trees that stand beside it. -/
structure Document where
  /-- The place that holds the whole document. -/
  root : Node
  /-- The trees that are not part of the document. -/
  detached : List Node := []
  /-- An identity larger than any that is in use. -/
  fresh : NodeId
deriving Repr, Inhabited

/-! ### Giving places to content -/

mutual

/-- Content with identities from `next` on, and the next one after it. -/
def Fragment.plant (next : NodeId) : Fragment → Node × NodeId
  | .string _ kind value => (.string next kind value, next + 1)
  | .element _ tag attributes children =>
    let (nodes, after) := Fragment.plantAll (next + 1) children
    (.element next tag attributes nodes, after)

/-- The same for a list of fragments. -/
def Fragment.plantAll (next : NodeId) : List Fragment → List Node × NodeId
  | [] => ([], next)
  | f :: rest =>
    let (node, middle) := f.plant next
    let (nodes, after) := Fragment.plantAll middle rest
    (node :: nodes, after)

end

namespace Document

/-- The identity of the place that holds a whole document. -/
def rootId : NodeId := 0

/-- The document with a given content. -/
def ofFragments (content : List Fragment) : Document :=
  let (children, fresh) := Fragment.plantAll (rootId + 1) content
  { root := .element rootId documentTag [] children, fresh }

/-- The document without content. -/
def empty : Document := ofFragments []

/-! ### Looking at a document -/

/-- The trees that do not stand in another one: the document, and what is beside it. -/
def trees (doc : Document) : List Node := doc.root :: doc.detached

/-- Every place, in the document or beside it. -/
def nodes (doc : Document) : List Node := Tree.subtreesAll doc.trees

/-- The place with an identity. -/
def find? (doc : Document) (id : NodeId) : Option Node := doc.nodes.find? fun n => n.label = id

/-- The place with an identity, which must be there. -/
def get (doc : Document) (id : NodeId) : Except Fault Node :=
  match doc.find? id with
  | some node => .ok node
  | none => .error .noSuchNode

/-- The place of which a place is a child. -/
def parentNode? (doc : Document) (id : NodeId) : Option Node :=
  doc.nodes.find? fun p => p.children.any fun c => c.label = id

/-- The identity of the place of which a place is a child. -/
def parent? (doc : Document) (id : NodeId) : Option NodeId := (doc.parentNode? id).map Tree.label

/-- Whether a place stands below itself. -/
def isEndless (doc : Document) (node : Node) : Bool :=
  doc.detached.any fun top => node.holds top.label

/-- The place with an identity, which must be there and not stand below itself. -/
def getFinite (doc : Document) (id : NodeId) : Except Fault Node := do
  let node ← doc.get id
  if doc.isEndless node then .error .cycle else return node

/-- The places after a place among the children of one parent. -/
def followers (doc : Document) (id : NodeId) : List Node :=
  match doc.parentNode? id with
  | some parent => (parent.children.dropWhile fun c => c.label ≠ id).drop 1
  | none => []

/-- The next child of the same parent. -/
def next? (doc : Document) (id : NodeId) : Option NodeId := (doc.followers id).head?.map Tree.label

/-- The place that holds running content: the first element named `body`, or else the
whole document. -/
def body (doc : Document) : NodeId :=
  match doc.root.descendants "body" with
  | node :: _ => node.label
  | [] => doc.root.label

/-- The indices that lead from the top of the document to a place in it. -/
def pathTo? (doc : Document) (id : NodeId) : Option (List Nat) := doc.root.pathTo? id

/-- The place in the document that indices lead to. -/
def at? (doc : Document) (path : List Nat) : Option NodeId := (doc.root.at? path).map Tree.label

/-- The content of the document. -/
def content (doc : Document) : List Fragment := doc.root.children.map Tree.fragment

/-- The document as HTML. -/
def html (doc : Document) : String := doc.root.innerHtml

/-- The text of a string, the markup of an element, and that of all content for the place that
holds the whole document. -/
def value (doc : Document) (node : Node) : String :=
  if node.label = doc.root.label then node.innerHtml else node.value

end Document

end Formulary
