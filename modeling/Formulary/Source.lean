import Formulary.Delimiters
import Formulary.Document.Basic
import Formulary.Formula.Content
import Formulary.Location
import Formulary.Tex.Reader
import Formulary.Text.Replace

/-! # Sources

A source is a notation in which a document holds mathematics.  It says what it recognises,
either in the strings of a container (`Source.sightings`) or at places of the document
(`Source.spots`), and how what it recognised is read as a formula (`Source.compile`).
Filters may change what is read before and the formula after.

TeX between delimiters and MathML elements are two notations, and any other one can be given by what
it reports and how it is read (`SourceFormat.other`). -/

namespace Formulary

/-- What a piece of mathematics is written as: a text, or a place of the document. -/
inductive Subject where
  | text (s : String)
  | node (id : NodeId)
deriving DecidableEq, Repr, Inhabited

/-- What filters work on. -/
inductive Filtered where
  | text (s : String)
  /-- A string or an element of the document. -/
  | place (node : Node)
  | formula (f : Formula)
  /-- A new node around an element of the document.  It is neither content nor a formula. -/
  | enclosed
deriving Repr, Inhabited

/-- What filters work on before a piece of mathematics is read. -/
def Subject.data (doc : Document) : Subject → Except Fault Filtered
  | text s => .ok (.text s)
  | node id => (doc.get id).map .place

/-- The text that is read, if it is one. -/
def Filtered.text? : Filtered → Option String
  | text s => some s
  | place (.string _ _ value) => some value
  | _ => none

/-! ### Filters -/

/-- A step before or after a piece of mathematics is read.  Given the mathematics, whether it is set
apart, and the data, it says whether the mathematics is set apart from now on, and makes other data
of the data or fails. -/
structure Filter where
  apply : Subject → Bool → Filtered → Bool × Except Failure Filtered
deriving Inhabited

/-- Replaces a pattern in a text. -/
def Filter.replace (pattern put : String) : Filter where
  apply _ display data :=
    match data.text? with
    | some s => (display, .ok (.text (Text.replaceAll pattern put s)))
    | none => (display, .error (.fault .wrongData))

/-- Sets an attribute of a formula. -/
def Filter.attribute (name : String) (value : Value) : Filter where
  apply _ display data :=
    match data with
    | .formula f => (display, .ok (.formula (f.setAttribute name value)))
    | .enclosed => (display, .ok .enclosed)
    | _ => (display, .error (.fault .wrongData))

/-- Puts a formula into a new node. -/
def Filter.wrap (kind : Value) : Filter where
  apply _ display data :=
    match data with
    | .formula f => (display, .ok (.formula (.node kind [f] [] none)))
    | .enclosed | .place (.element _ _ _ _) => (display, .ok .enclosed)
    | _ => (display, .error (.fault .wrongData))

/-- Says whether the mathematics is set apart. -/
def Filter.display (apart : Bool) : Filter where
  apply _ _ data := (apart, .ok data)

/-- Refuses the mathematics. -/
def Filter.fail (id message : String) : Filter where
  apply _ display _ := (display, .error (.ofCause (.raised id message)))

/-- Filters one after the other, up to the first that fails. -/
def Filter.applyAll (filters : List Filter) (math : Subject) (display : Bool) (data : Filtered) :
    Bool × Except Failure Filtered :=
  match filters with
  | [] => (display, .ok data)
  | filter :: rest =>
    match filter.apply math display data with
    | (display, .ok data) => applyAll rest math display data
    | (display, .error failure) => (display, .error failure)

/-! ### Sources -/

/-- Mathematics that a source sees at a place of the document. -/
structure Spot where
  math : Subject
  display : Bool
  start : Location NodeId
  stop : Location NodeId
deriving DecidableEq, Repr, Inhabited

/-- The spot of an element. -/
def Spot.ofElement (id : NodeId) (display : Bool) : Spot :=
  { math := .node id, display, start := ⟨some id, 0, ""⟩, stop := ⟨some id, 0, ""⟩ }

/-- What a source looks at, and what it sees there. -/
inductive Outlook where
  /-- The strings of a container. -/
  | strings (find : List String → List Sighting)
  /-- A container in its document. -/
  | places (find : Document → Node → List Spot)
deriving Inhabited

/-- How a source writes mathematics. -/
inductive SourceFormat where
  /-- TeX between delimiters. -/
  | tex (delims : Delimiters) (dialect : Dialect) (limit : Int)
  /-- MathML elements. -/
  | mathml
  /-- Any other notation, with what it sees and how a piece of it is read.  It has no use for
  filters. -/
  | other (name : String) (outlook : Outlook) (read : Bool → Filtered → Except Failure Formula)
deriving Inhabited

/-- Given pieces of text, whatever the strings are. -/
def SourceFormat.fixed (name : String) (sightings : List Sighting) : SourceFormat :=
  .other name (.strings fun _ => sightings) fun _ data =>
    match data.text? with
    | some s => .ok (.node "math" [.token "mi" (.text s) [] none] [] none)
    | none => .error (.fault .wrongData)

/-- A notation in which a document holds mathematics. -/
structure Source where
  format : SourceFormat
  before : List Filter := []
  after : List Filter := []
deriving Inhabited

namespace Source

/-- TeX between the usual delimiters, in the usual dialect. -/
def tex : Source := { format := .tex {} .usual defaultLimit }

/-- MathML elements. -/
def mathml : Source := { format := .mathml }

/-- The name of a source. -/
def name (source : Source) : String :=
  match source.format with
  | .tex _ _ _ => "TeX"
  | .mathml => "MathML"
  | .other name _ _ => name

/-- Whether the source looks at strings rather than at places. -/
def readsStrings (source : Source) : Bool :=
  match source.format with
  | .tex _ _ _ | .other _ (.strings _) _ => true
  | .mathml | .other _ (.places _) _ => false

/-- What a source sees in some strings. -/
def sightings (source : Source) (strings : List String) : List Sighting :=
  match source.format with
  | .tex delims _ _ => delims.find strings
  | .other _ (.strings find) _ => find strings
  | .mathml | .other _ (.places _) _ => []

/-! ### Elements -/

/-- Whether a walk up the parents of a place meets an element called `math` before it comes to the
place `container` or to the top.  It takes `steps` steps at most. -/
def meetsMath (doc : Document) (container : NodeId) (steps : Nat) (id : NodeId) : Bool :=
  match steps with
  | 0 => false
  | steps + 1 =>
    match doc.parentNode? id with
    | none => false
    | some parent =>
      if parent.label = container then false
      else parent.kind = "math" || meetsMath doc container steps parent.label

/-- Whether a place is inside an element called `math` that is below a container.  No way up is
longer than the number of places. -/
def isInMath (doc : Document) (container id : NodeId) : Bool :=
  meetsMath doc container doc.nodes.length id

/-- Whether an element asks to be set apart. -/
def isDisplay (node : Node) : Bool := node.attribute? "display" = some "block"

/-- The elements of a container that are mathematics, each with whether it is set apart: those that
are called `math`, are not typeset, and are not inside another one of the container. -/
def elements (doc : Document) (container : Node) : List (NodeId × Bool) :=
  ((container.descendants "math").filter fun node =>
    (node.attribute? Formula.typesetMark).isNone &&
      !isInMath doc container.label node.label).map fun node => (node.label, isDisplay node)

/-- What a source sees at the places of a container. -/
def spots (source : Source) (doc : Document) (container : Node) : List Spot :=
  match source.format with
  | .mathml => (elements doc container).map fun (id, display) => .ofElement id display
  | .other _ (.places find) _ => find doc container
  | .tex _ _ _ | .other _ (.strings _) _ => []

/-! ### Reading -/

/-- The formula in a piece of mathematics, before the filters that follow. -/
def read (source : Source) (display : Bool) (data : Filtered) : Except Failure Formula :=
  match source.format, data with
  | .mathml, .place node => .ok (.ofContent node)
  | .mathml, _ => .error (.fault .wrongData)
  | .other _ _ read, data => read display data
  | .tex _ dialect limit, data =>
    match data.text? with
    | none => .error (.fault .wrongData)
    | some s => do
      match ← readTex dialect limit s with
      | some row =>
        return .node "math" [row] (if display then [("display", .text "block")] else []) none
      | none => .error (.fault .missingNode)

/-- Whether the source takes no heed of filters. -/
def ignoresFilters (source : Source) : Bool :=
  match source.format with
  | .other _ _ _ => true
  | _ => false

/-- Whether some data is set apart after reading it, and the formula that was read. -/
def compileData (source : Source) (math : Subject) (display : Bool) (data : Filtered) :
    Bool × Except Failure Formula :=
  if source.ignoresFilters then (display, source.read display data)
  else
    match Filter.applyAll source.before math display data with
    | (display, .error failure) => (display, .error failure)
    | (display, .ok data) =>
      match source.read display data with
      | .error failure => (display, .error failure)
      | .ok formula =>
        match Filter.applyAll source.after math display (.formula formula) with
        | (display, .ok (.formula formula)) => (display, .ok formula)
        | (display, .ok _) => (display, .error (.fault .wrongData))
        | (display, .error failure) => (display, .error failure)

/-- Whether a piece of mathematics is set apart after reading it, and the formula that was
read. -/
def compile (source : Source) (doc : Document) (display : Bool) (math : Subject) :
    Bool × Except Failure Formula :=
  match math.data doc with
  | .ok data => source.compileData math display data
  | .error fault => (display, .error (.fault fault))

/-- Without filters, a text is compiled to what is read from it. -/
theorem compile_text {delims : Delimiters} {d : Dialect} {limit : Int} {doc : Document}
    {display : Bool} {text : String} :
    compile { format := .tex delims d limit } doc display (.text text) =
      (display, read { format := .tex delims d limit } display (.text text)) := by
  have hcompile : compile { format := .tex delims d limit } doc display (.text text) =
      match read { format := .tex delims d limit } display (.text text) with
      | .error failure => (display, .error failure)
      | .ok formula => (display, .ok formula) := rfl
  rw [hcompile]
  cases read { format := .tex delims d limit } display (.text text) <;> rfl

end Source

end Formulary
