import Formulary.Document.Basic
import Formulary.Text.Slice

/-! # Editing documents

A place is moved by taking it from where it stands, in the document or beside it, and
putting it where it is wanted; what it displaces stays beside the document.  To move the place
that holds the whole document is to move its content, one place after the other.

An edit fails when it needs a parent that is not there, or when a place would come to stand
in itself.  A failed edit may have changed the document up to there, so the outcome of a move is
a document together with the fault that cut it short, if any (`Edited`).

A place that is put somewhere below itself leaves the document, and stands beside it as a tree
with a stub of itself in it (`Document.settle`).  To take a place out of such a tree that leads
to the stub is to cut the ring open there (`Document.lift`). -/

namespace Formulary

/-- What an edit leaves. -/
structure Edited where
  document : Document
  fault : Option Fault := none
deriving Repr, Inhabited

/-- The document of an edit that did not fail. -/
def Edited.toExcept (edited : Edited) : Except Fault Document :=
  match edited.fault with
  | none => .ok edited.document
  | some fault => .error fault

namespace Document

/-! ### The elementary changes -/

/-- The document with other places in place of one, wherever that has a parent. -/
def splice (doc : Document) (id : NodeId) (put : Node → List Node) : Document :=
  { doc with root := doc.root.splice id put, detached := doc.detached.map (Tree.splice id put) }

/-- The document with one place changed and not moved. -/
def modify (doc : Document) (id : NodeId) (f : Node → Node) : Document :=
  { doc with root := doc.root.modify id f, detached := doc.detached.map (Tree.modify id f) }

/-- The document with a tree beside it. -/
def beside (doc : Document) (node : Node) : Document :=
  { doc with detached := doc.detached ++ [node] }

/-- The document with new content beside it, and the identity of that content. -/
def create (doc : Document) (content : Fragment) : NodeId × Document :=
  let (node, fresh) := content.plant doc.fresh
  (node.label, { doc with detached := doc.detached ++ [node], fresh })

/-! ### Moving places -/

/-- What is moved when the place `id` is: its content if it holds the whole document. -/
def moved (doc : Document) (id : NodeId) : List NodeId :=
  if id = doc.root.label then doc.root.children.map Tree.label else [id]

/-- The document without a place and what is below it, and that place.  What was above a place
that stands below itself is below it then. -/
def lift (doc : Document) (id : NodeId) : Document × Option Node :=
  match doc.find? id with
  | none => (doc, none)
  | some node =>
    let cut := Tree.splice id fun _ => []
    let others (top : NodeId) := doc.detached.filter fun t => t.label ≠ top
    match doc.detached.find? fun top => node.holds top.label with
    | none => ({ doc with root := cut doc.root, detached := (others id).map cut }, some node)
    | some top =>
      ({ doc with detached := others top.label },
        some (node.splice top.label fun _ => if id = top.label then [] else [cut top]))

/-- The document with a place put beside it. -/
def setAside (doc : Document) (id : NodeId) : Document :=
  match doc.lift id with
  | (rest, some node) => rest.beside node
  | (rest, none) => rest

/-- The document with a tree that was lifted out of it put into the place `parent`, where
`graft` puts it, or its stub, into the tree that holds that place. -/
def settle (doc : Document) (parent : NodeId) (graft : Node → Node → Node) (node : Node) :
    Document :=
  if (node.find? parent).isSome then doc.beside (graft node.stub node)
  else { doc with root := graft node doc.root, detached := doc.detached.map (graft node) }

/-- The document with some places taken from where they stand and put into the place `parent`
by `graft`, up to one that is `parent` itself. -/
def moveAll (parent : NodeId) (graft : Node → Node → Node) (doc : Document) :
    List NodeId → Edited
  | [] => { document := doc }
  | id :: rest =>
    if id = parent then { document := doc, fault := some .cycle }
    else
      match doc.lift id with
      | (remaining, some node) => moveAll parent graft (remaining.settle parent graft node) rest
      | (remaining, none) => moveAll parent graft remaining rest

/-- The fault of having put a place below itself. -/
def cycleFault (doc : Document) (id : NodeId) : Option Fault :=
  if (doc.find? id).any doc.isEndless then some .cycle else none

/-- The place `child` becomes the last child of the element `parent`. -/
def append (doc : Document) (parent child : NodeId) : Edited :=
  if !((doc.find? parent).any Tree.isElement) then { document := doc, fault := some .wrongData }
  else if child = parent then { document := doc, fault := some .cycle }
  else
    let edited := doc.moveAll parent (Tree.graftLast parent) (doc.moved child)
    { edited with fault := edited.fault.or (edited.document.cycleFault child) }

/-- The place `id` comes to stand immediately before the place `next`. -/
def insert (doc : Document) (id next : NodeId) : Edited :=
  match doc.parent? next with
  | none => { document := doc, fault := some .noParent }
  | some parent =>
    if id = next then { document := doc, fault := some .cycle }
    else if id = parent then
      { document := if id = doc.root.label then doc else doc.setAside id, fault := some .cycle }
    else
      let edited := doc.moveAll parent (Tree.graftBefore next) (doc.moved id)
      { edited with fault := edited.fault.or (edited.document.cycleFault id) }

/-- The place `new` comes to stand where `old` stands, and `old` beside the document. -/
def replace (doc : Document) (new old : NodeId) : Edited :=
  match doc.parent? old with
  | none => { document := doc, fault := some .noParent }
  | some parent =>
    if new = old then { document := doc }
    else if new = parent then { document := doc, fault := some .cycle }
    else
      let edited := doc.moveAll parent (Tree.graftBefore old) (doc.moved new)
      { edited with document := edited.document.setAside old }

/-- The place `id` comes to stand beside the document, unless it has no parent. -/
def remove (doc : Document) (id : NodeId) : Except Fault Document := do
  let _ ← doc.get id
  if (doc.parent? id).isNone then .ok doc else return doc.setAside id

/-- Two new strings come to stand where `id` stands: its text before and after the offset
`n`.  Their identities come with the document. -/
def split (doc : Document) (id : NodeId) (n : Int) :
    Except Fault (NodeId × NodeId × Document) := do
  let node ← doc.get id
  if (doc.parent? id).isNone then .error .noParent
  else
    let (head, tail) := Text.cut node.value n
    let first := doc.fresh
    let second := doc.fresh + 1
    let rest := { doc with fresh := doc.fresh + 2 }.splice id fun _ =>
      [.string first .text head, .string second .text tail]
    return (first, second, rest.beside node)

/-! ### Attributes -/

/-- An attribute of an element is set. -/
def setAttribute (doc : Document) (id : NodeId) (name value : String) : Except Fault Document := do
  let node ← doc.get id
  if node.isElement then
    return doc.modify id fun
      | .element label tag attributes children =>
        .element label tag (attributes.set name value) children
      | other => other
  else .error .wrongData

end Document

end Formulary
