import Formulary.Item

/-! # Discovery

Discovery finds the mathematics of some containers with some sources and merges it into a
list of items in document order.  The strings of a container are extracted at most once,
when the first source asks for them (`Visit.strings`).

An item has as its key the container, the place in which it starts, numbered within the container,
and its offset there.  A start in strings that has no place counts as lying in the last place of its
string, at its offset in the string. -/

namespace Formulary

/-- A container on its way through the sources. -/
structure Visit where
  /-- The position of the container among the others. -/
  index : Nat
  container : Node
  /-- The blocks of the container, once a source has asked for them. -/
  blocks : Option (List Block) := none
  items : List Item
  /-- The containers whose strings were extracted, each as often as they were. -/
  extracted : List NodeId := []
deriving Inhabited

/-- The result of a discovery. -/
structure Survey where
  items : List Item
  /-- The containers whose strings were extracted, each as often as they were. -/
  extracted : List NodeId := []
deriving Inhabited

/-- How often strings were extracted. -/
def Survey.extractions (survey : Survey) : Nat := survey.extracted.length

namespace Visit

/-- The number of a place within the container; a place outside counts as one past the
last. -/
def number (visit : Visit) (id : NodeId) : Int := visit.container.labels.idxOf id

/-- The key of an item that starts at offset `start` of a string with the given runs. -/
def stringKey (visit : Visit) (runs : List (Run NodeId)) (start : Int)
    (location : Location NodeId) : Key :=
  match location.node with
  | some id => [visit.index, visit.number id, location.offset]
  | none => [visit.index, (runs.getLast?.map fun run => visit.number run.node).getD (-1), start]

/-- The item for a sighting in some blocks. -/
def itemOf (visit : Visit) (source : Source) (blocks : List Block) (sighting : Sighting) :
    Except Fault Item :=
  match Text.atIndex? blocks sighting.string with
  | none => .error .outOfRange
  | some block =>
    let start := locate block.runs sighting.start sighting.opener
    let stop := locate block.runs sighting.stop sighting.closer
    .ok {
      math := .text sighting.math, source, display := sighting.display, start, stop
      key := visit.stringKey block.runs sighting.start start }

/-- The item for a spot.  A spot that is nowhere counts as one outside. -/
def itemOfSpot (visit : Visit) (source : Source) (spot : Spot) : Item :=
  let place : Int := (spot.start.node.map visit.number).getD visit.container.labels.length
  { math := spot.math, source, display := spot.display, start := spot.start, stop := spot.stop
    key := [visit.index, place, spot.start.offset] }

/-- The item for an element. -/
def itemOfElement (visit : Visit) (source : Source) (id : NodeId) (display : Bool) : Item :=
  visit.itemOfSpot source (.ofElement id display)

/-- The blocks of the container, and the visit after they were asked for.  They are extracted, which
is noted, unless the visit has them already. -/
def strings (o : Extraction) (visit : Visit) : List Block × Visit :=
  match visit.blocks with
  | some blocks => (blocks, visit)
  | none =>
    let blocks := o.find visit.container
    (blocks, { visit with
      blocks := some blocks
      extracted := visit.extracted ++ [visit.container.label] })

/-- The visit after one source. -/
def ask (doc : Document) (o : Extraction) (visit : Visit) (source : Source) : Except Fault Visit :=
  if source.readsStrings then do
    let (blocks, visit) := visit.strings o
    let found ← (source.sightings (blocks.map Block.string)).mapM (visit.itemOf source blocks)
    return { visit with items := mergeByKey Item.key visit.items found }
  else
    let found := (source.spots doc visit.container).map (visit.itemOfSpot source)
    .ok { visit with items := mergeByKey Item.key visit.items found }

/-- The visit after some sources in turn. -/
def askAll (doc : Document) (o : Extraction) (visit : Visit) (sources : List Source) :
    Except Fault Visit :=
  match sources with
  | [] => .ok visit
  | source :: rest => do
    let visit ← visit.ask doc o source
    askAll doc o visit rest

end Visit

/-- The survey after some containers, of which the first has the position `index`. -/
def discoverFrom (doc : Document) (o : Extraction) (sources : List Source) (index : Nat)
    (survey : Survey) (containers : List NodeId) : Except Fault Survey :=
  match containers with
  | [] => .ok survey
  | id :: rest => do
    let container ← doc.get id
    let visit ← Visit.askAll doc o
      { index, container, items := survey.items, extracted := survey.extracted } sources
    discoverFrom doc o sources (index + 1)
      { items := visit.items, extracted := visit.extracted } rest

/-- The items of a list with the mathematics of some containers merged in. -/
def discover (doc : Document) (o : Extraction) (containers : List NodeId) (sources : List Source)
    (items : List Item) : Except Fault Survey :=
  discoverFrom doc o sources 0 { items } containers

end Formulary
