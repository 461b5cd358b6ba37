import Formulary.Discovery

/-! # Sessions

A session takes the mathematics of one document through its stages: `discover`, `compile`,
`typeset` and `update`, of which `render` is the sequence.  A stage that is done is not done
again until `reset`, or, for `update`, until `removeFromDocument` undoes it.  Mathematics
that cannot be read leaves the list of items and is recorded with its error.

The update goes through the items from the last to the first, so that no pending offset is
moved by a split.  Places that are split meanwhile are followed through the strings that
replaced them (`current`). -/

namespace Formulary

/-- The stages of a session that are done once. -/
inductive Phase where
  | discover
  | compile
  | typeset
  | update
deriving DecidableEq, Repr, Inhabited

/-- The name of a phase. -/
def Phase.name : Phase → String
  | discover => "discover"
  | compile => "compile"
  | typeset => "typeset"
  | update => "update_document"

/-- What a session has done last. -/
inductive Progress where
  | uninitialized
  | discovered
  | compiled
  | typeset
  | rendered
  | removed
deriving DecidableEq, Repr, Inhabited

/-- The name of what a session has done last. -/
def Progress.name : Progress → String
  | uninitialized => "UNINITIALIZED"
  | discovered => "DISCOVERED"
  | compiled => "COMPILED"
  | typeset => "TYPESET"
  | rendered => "RENDERED"
  | removed => "REMOVED"

/-! ### Reports -/

/-- What a session tells about its work. -/
inductive Report where
  | log (message : String)
  | error (message : String)
  | compiled (item : Item) (error : Option TexError)
deriving Inhabited

/-- The weight of a line of a log. -/
inductive Level where
  | debug
  | info
  | warning
  | error
deriving DecidableEq, Repr, Inhabited

/-- The name of a weight. -/
def Level.name : Level → String
  | debug => "DEBUG"
  | info => "INFO"
  | warning => "WARNING"
  | error => "ERROR"

/-- A piece of mathematics as a line of a log shows it. -/
def Subject.literal (doc : Document) : Subject → String
  | .text s => Text.quoted s
  | .node place =>
    match doc.find? place with
    | some found => if found.isElement then found.value else Text.quoted found.value
    | none => ""

/-- A report as a line of a log. -/
def Report.line (doc : Document) : Report → Level × String
  | .log message => (.info, message)
  | .error message => (.error, message)
  | .compiled item none =>
    (.debug, "Compiled " ++ item.math.literal doc ++ " with " ++ item.source.name)
  | .compiled item (some e) =>
    (.warning, "Could not compile " ++ item.math.literal doc ++ ": " ++ e.line)

/-! ### Sessions -/

/-- The state of a session. -/
structure Session where
  document : Document
  sources : List Source
  /-- Where to look, if it was said. -/
  containers : Option (List NodeId) := none
  extraction : Extraction := {}
  items : List Item := []
  errors : List (Item × TexError) := []
  finished : List Phase := []
  progress : Progress := .uninitialized
  /-- What has been reported, the first report first. -/
  reports : List Report := []
deriving Inhabited

namespace Session

/-- The session with one more report. -/
def report (s : Session) (r : Report) : Session := { s with reports := s.reports ++ [r] }

/-- The session with a phase done. -/
def finish (s : Session) (phase : Phase) (progress : Progress) : Session :=
  { s with finished := s.finished ++ [phase], progress }

/-- Finds the mathematics of the document, in the given containers or else in the
session's. -/
def discover (s : Session) (containers : Option (List NodeId)) : Except Fault Session :=
  if .discover ∈ s.finished then .ok s
  else do
    let places := (containers.or s.containers).getD [s.document.body]
    let survey ← Formulary.discover s.document s.extraction places s.sources s.items
    let s := { s with items := survey.items }.finish .discover .discovered
    return s.report (.log ("Found " ++ toString s.items.length ++ " math items"))

/-- Reads the items, of which `items` are still to be read; the others come before. -/
def compileFrom (s : Session) (items : List Item) : Except Fault Session :=
  match items with
  | [] => .ok s
  | item :: rest =>
    match item.compile s.document with
    | (item, none) =>
      compileFrom ({ s with items := s.items ++ [item] }.report (.compiled item none)) rest
    | (item, some (.tex e)) =>
      compileFrom
        ({ s with errors := s.errors ++ [(item, e)] }.report (.compiled item (some e))) rest
    | (_, some (.fault fault)) => .error fault

/-- Reads the items as formulas. -/
def compile (s : Session) : Except Fault Session :=
  if .compile ∈ s.finished then .ok s
  else do
    let s ← compileFrom { s with items := [] } s.items
    return s.finish .compile .compiled

/-- Typesets some items in turn. -/
def typesetAll (doc : Document) : List Item → Except Fault (Document × List Item)
  | [] => .ok (doc, [])
  | item :: rest => do
    let (doc, item) ← item.typeset doc
    let (doc, rest) ← typesetAll doc rest
    return (doc, item :: rest)

/-- Makes document content of the formulas. -/
def typeset (s : Session) : Except Fault Session :=
  if .typeset ∈ s.finished then .ok s
  else do
    let (document, items) ← typesetAll s.document s.items
    return { s with document, items }.finish .typeset .typeset

/-- The string that stands at the beginning of where a place stood, after replacements of
strings by their beginnings, the first of them first. -/
def current (replaced : List Replacement) (id : NodeId) : NodeId :=
  replaced.foldl (fun now pair => if now = pair.1 then pair.2 else now) id

/-- A location after replacements. -/
def moved (replaced : List Replacement) (location : Location NodeId) : Location NodeId :=
  { location with node := location.node.map (current replaced) }

/-- A session in the middle of an update: the items that are done are `done`, in document
order. -/
structure Updating where
  session : Session
  replaced : List Replacement := []
  done : List Item := []

/-- Puts one item into the document. -/
def Updating.step (u : Updating) (item : Item) : Except Fault Updating :=
  if item.stage.rank < Stage.typeset.rank then .ok { u with done := item :: u.done }
  else if item.isResolved then do
    let item := { item with
      start := moved u.replaced item.start
      stop := moved u.replaced item.stop }
    let (document, item, replaced) ← item.update u.session.document
    return {
      session := { u.session with document }
      replaced := u.replaced ++ replaced
      done := item :: u.done }
  else
    .ok {
      session := u.session.report (.log ("Skipping " ++ item.math.literal u.session.document ++
        ": position not in the document"))
      replaced := u.replaced
      done := item :: u.done }

/-- Puts items into the document, the last one first. -/
def Updating.run (u : Updating) : List Item → Except Fault Updating
  | [] => .ok u
  | item :: rest => do
    let u ← u.step item
    u.run rest

/-- Puts the typeset forms in place of their sources. -/
def update (s : Session) : Except Fault Session :=
  if .update ∈ s.finished then .ok s
  else do
    let u ← Updating.run { session := s } s.items.reverse
    return { u.session with items := u.done }.finish .update .rendered

/-- All phases in turn. -/
def render (s : Session) : Except Fault Session := do
  let s ← s.discover none
  let s ← s.compile
  let s ← s.typeset
  s.update

/-- Takes the items that are in the document back to their typeset forms. -/
def removeAll (restore : Bool) (doc : Document) : List Item → Except Fault (Document × List Item)
  | [] => .ok (doc, [])
  | item :: rest => do
    let (doc, item) ←
      if item.stage = .inserted then item.setStage doc .typeset restore else .ok (doc, item)
    let (doc, rest) ← removeAll restore doc rest
    return (doc, item :: rest)

/-- Takes the typeset forms out of the document; with `restore` the sources come back. -/
def removeFromDocument (s : Session) (restore : Bool) : Except Fault Session :=
  if .update ∈ s.finished then do
    let (document, items) ← removeAll restore s.document s.items
    return { s with
      document, items
      finished := s.finished.filter (· ≠ .update)
      progress := .removed }
  else .ok s

/-- Forgets all items. -/
def reset (s : Session) : Session :=
  { s with items := [], errors := [], finished := [], progress := .uninitialized }

/-! ### Single items

Items are named by their indices in the list; a negative index counts from the end. -/

/-- The index of an item, and the item. -/
def item (s : Session) (index : Int) : Except Fault (Nat × Item) :=
  match Text.indexIn? s.items.length index with
  | none => .error .outOfRange
  | some i =>
    match s.items[i]? with
    | none => .error .outOfRange
    | some item => .ok (i, item)

/-- The session with the item at an index changed. -/
def putItem (s : Session) (i : Nat) (item : Item) : Session :=
  { s with items := s.items.set i item }

/-- Reads one item; its failure does not take it from the list. -/
def compileItem (s : Session) (index : Int) : Except Fault (Session × Option TexError) := do
  let (i, item) ← s.item index
  match item.compile s.document with
  | (item, none) => return (s.putItem i item, none)
  | (item, some (.tex e)) => return (s.putItem i item, some e)
  | (_, some (.fault fault)) => .error fault

/-- Typesets one item. -/
def typesetItem (s : Session) (index : Int) : Except Fault Session := do
  let (i, item) ← s.item index
  let (document, item) ← item.typeset s.document
  return { s with document }.putItem i item

/-- Takes one item back to a stage. -/
def setItemStage (s : Session) (index : Int) (stage : Stage) (restore : Bool) :
    Except Fault Session := do
  let (i, item) ← s.item index
  let (document, item) ← item.setStage s.document stage restore
  return { s with document }.putItem i item

/-- Takes one item from the list. -/
def dropItem (s : Session) (index : Int) : Except Fault Session := do
  let (i, _) ← s.item index
  return { s with items := s.items.eraseIdx i }

end Session

end Formulary
