import Formulary.Document.Edit
import Formulary.Location
import Formulary.Order
import Formulary.Source

/-! # Items

An item is a piece of mathematics of a document on its way from its source to its typeset
form.  It passes through four stages: `Item.compile` reads its source as a formula,
`Item.typeset` makes document content of the formula, and `Item.update` puts that content
in place of the source.  `Item.setStage` takes an item back to an earlier stage.

Putting an item into the document splits the strings in which its source begins and ends.
The update therefore also says which string each new string has taken the place of, so that
locations before the split can follow. -/

namespace Formulary

/-- How far an item has come. -/
inductive Stage where
  | unprocessed
  | compiled
  | typeset
  | inserted
deriving DecidableEq, Repr, Inhabited

/-- The name of a stage. -/
def Stage.name : Stage → String
  | unprocessed => "UNPROCESSED"
  | compiled => "COMPILED"
  | typeset => "TYPESET"
  | inserted => "INSERTED"

/-- Every stage, in order. -/
def Stage.all : List Stage := [unprocessed, compiled, typeset, inserted]

/-- The stage with a given name. -/
def Stage.ofName? (name : String) : Option Stage := all.find? fun stage => stage.name = name

/-- The position of a stage among the others. -/
def Stage.rank : Stage → Nat
  | unprocessed => 0
  | compiled => 1
  | typeset => 2
  | inserted => 3

/-- The earlier of two stages. -/
def Stage.min (a b : Stage) : Stage := if a.rank ≤ b.rank then a else b

/-- A piece of mathematics of a document. -/
structure Item where
  math : Subject
  source : Source
  display : Bool
  start : Location NodeId
  stop : Location NodeId
  key : Key := []
  /-- The formula that was read. -/
  root : Option Formula := none
  /-- The outermost element of the typeset form. -/
  content : Option NodeId := none
  stage : Stage := .unprocessed
  /-- How often the source was read. -/
  readings : Nat := 0
deriving Inhabited

/-- A string of the document, and the new string that holds its beginning. -/
abbrev Replacement := NodeId × NodeId

namespace Item

/-- Whether both ends of the item are in the document. -/
def isResolved (item : Item) : Bool := item.start.node.isSome && item.stop.node.isSome

/-! ### Reading and typesetting -/

/-- The item after reading its source, and the failure if it cannot be read. -/
def compile (doc : Document) (item : Item) : Item × Option Failure :=
  if item.stage.rank < Stage.compiled.rank then
    let readings := item.readings + 1
    match item.source.compile doc item.display item.math with
    | (display, .ok root) =>
      ({ item with display, root := some root, stage := .compiled, readings }, none)
    | (display, .error failure) => ({ item with display, readings }, some failure)
  else (item, none)

/-- Content with an attribute of its outermost element set. -/
def marked (name value : String) : Fragment → Fragment
  | .element label tag attributes children => .element label tag (attributes.set name value) children
  | other => other

/-- The content that shows an item, marked with the name of its source. -/
def typesetForm (source : Source) (root : Formula) : Fragment :=
  marked Formula.typesetMark source.name root.fragment

/-- The document with the typeset form of an item beside it, and the item. -/
def typeset (doc : Document) (item : Item) : Except Fault (Document × Item) :=
  if item.stage.rank < Stage.typeset.rank then
    match item.root with
    | none => .error .wrongData
    | some root =>
      let (content, doc) := doc.create (typesetForm item.source root)
      .ok (doc, { item with content := some content, stage := .typeset })
  else .ok (doc, item)

/-! ### Putting an item into the document -/

/-- Where the source begins among some siblings: an offset at the end of a place belongs to
the text after it, so it moves on to the first text that goes on beyond it, but not past
the place `last`. -/
def firstPlace (last : NodeId) (offset : Int) : List Node → Except Fault (Node × Int)
  | [] => .error .noSuchNode
  | node :: rest =>
    if node.label = last || (node.isText && decide (offset < node.value.length)) then
      .ok (node, offset)
    else firstPlace last 0 rest

/-- The document without the places among some siblings up to the place `last`. -/
def removeUpTo (last : NodeId) (doc : Document) : List Node → Except Fault Document
  | [] => .error .noSuchNode
  | node :: rest =>
    if node.label = last then .ok doc
    else do
      let doc ← doc.remove node.label
      removeUpTo last doc rest

/-- The place that holds the text of `id` from `offset` on, after a split if one is needed. -/
def dropBefore (doc : Document) (id : NodeId) (offset : Int) :
    Except Fault (Document × NodeId × List Replacement) :=
  if offset = 0 then .ok (doc, id, [])
  else do
    let (head, tail, doc) ← doc.split id offset
    return (doc, tail, [(id, head)])

/-- The place that holds the text of `id` up to `offset`, after a split if one is needed. -/
def dropAfter (doc : Document) (id : NodeId) (offset : Int) :
    Except Fault (Document × NodeId × List Replacement) := do
  let node ← doc.get id
  if offset < node.value.length then
    let (head, _, doc) ← doc.split id offset
    return (doc, head, [(id, head)])
  else return (doc, id, [])

/-- The document with the source between two locations cut down to one place, and that
place. -/
def isolate (doc : Document) (start : NodeId) (offset : Int) (stop : NodeId) (stopOffset : Int) :
    Except Fault (Document × NodeId × List Replacement) := do
  let first ← doc.get start
  let (node, offset) ← firstPlace stop offset (first :: doc.followers start)
  if node.label = stop then
    let (doc, id, ends) ← dropAfter doc stop stopOffset
    let (doc, id, begins) ← dropBefore doc id offset
    return (doc, id, ends ++ begins)
  else
    let (doc, id, begins) ← dropBefore doc node.label offset
    let first ← doc.get id
    let doc ← removeUpTo stop doc (first :: doc.followers id)
    let (doc, id, ends) ← dropAfter doc stop stopOffset
    return (doc, id, begins ++ ends)

/-- The document with the source between the two ends of an item replaced by its typeset
form. -/
def place (doc : Document) (item : Item) (start stop : NodeId) :
    Except Fault (Document × NodeId × List Replacement) := do
  let (doc, source, replaced) ←
    if item.source.readsStrings then
      isolate doc start item.start.offset stop item.stop.offset
    else .ok (doc, start, [])
  match item.content with
  | none => .error .wrongData
  | some content =>
    let doc ← (doc.replace content source).toExcept
    return (doc, content, replaced)

/-- The document with an item put into it, the item, and the strings that were replaced by
their beginnings.  An item that is in the document, or whose ends are not, stays as it is. -/
def update (doc : Document) (item : Item) :
    Except Fault (Document × Item × List Replacement) :=
  if item.stage = .inserted then .ok (doc, item, [])
  else
    match item.start.node, item.stop.node with
    | some start, some stop => do
      let (doc, content, replaced) ← item.place doc start stop
      return (doc, { item with
        start := ⟨some content, 0, item.start.delimiter⟩
        stop := ⟨some content, 0, item.stop.delimiter⟩
        stage := .inserted }, replaced)
    | _, _ => .ok (doc, item, [])

/-! ### Going back -/

/-- The source of an item, put beside the document if it is a text, with the offset of its
end. -/
def sourceNode (doc : Document) (item : Item) : Except Fault (Document × NodeId × Int) :=
  if item.source.readsStrings then do
    match (← item.math.data doc).text? with
    | none => .error .wrongData
    | some s =>
      let text := item.start.delimiter ++ s ++ item.stop.delimiter
      let (id, doc) := doc.create (.text text)
      return (doc, id, text.length)
  else
    match item.math with
    | .node id => .ok (doc, id, 0)
    | .text _ => .error .wrongData

/-- The document without the typeset form of an item, and the item.  With `restore` its
source comes back to its place; without, the item is nowhere any more. -/
def removeFromDocument (doc : Document) (item : Item) (restore : Bool) :
    Except Fault (Document × Item) :=
  if item.stage = .inserted then
    match item.start.node with
    | none => .error .noSuchNode
    | some content =>
      if restore then do
        let (doc, id, stop) ← item.sourceNode doc
        let doc ← (doc.insert id content).toExcept
        let doc ← doc.remove content
        return (doc, { item with
          start := ⟨some id, 0, item.start.delimiter⟩
          stop := ⟨some id, stop, item.stop.delimiter⟩ })
      else do
        let doc ← doc.remove content
        return (doc, { item with
          start := ⟨none, 0, item.start.delimiter⟩
          stop := ⟨none, 0, item.stop.delimiter⟩ })
  else .ok (doc, item)

/-- The item without what belongs to stages after `stage`. -/
def forget (item : Item) (stage : Stage) : Item :=
  { item with
    content := if stage.rank < Stage.typeset.rank then none else item.content
    root := if stage.rank < Stage.compiled.rank then none else item.root
    stage := item.stage.min stage }

/-- The document and the item with the item taken back to a stage, if it is beyond it. -/
def setStage (doc : Document) (item : Item) (stage : Stage) (restore : Bool) :
    Except Fault (Document × Item) := do
  let (doc, item) ←
    if stage.rank < Stage.inserted.rank then item.removeFromDocument doc restore
    else .ok (doc, item)
  return (doc, item.forget stage)

end Item

end Formulary
