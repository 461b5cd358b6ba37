import Formulary.Failure
import Formulary.Formula.Basic

/-! # Frames

While TeX is read, an open construction is a *frame* on a stack: it collects the nodes
read since it was opened.  Everything pushed on the stack is such an item, closing items
and finished nodes included.  A `FrameKind` says how a kind of item behaves: which closing
item ends it (`ClosingRule`), what is built from its nodes (`BuildRule`), and what is said
of a closing item that does not belong to it.

`Frame.check` decides what an incoming item does to a frame.  It answers with the frame as
it is afterwards and a `Verdict`: the item stays above the frame, is taken up by the frame,
or ends it.

An item that counts as a finished node may hold no node.  The frame that takes it up then has
a gap among its nodes, and a frame with a gap cannot be built unless the gap is all it
holds. -/

namespace Formulary

/-- Which item ends a frame, and what else the frame takes in by itself. -/
inductive ClosingRule where
  /-- Ended by the end of the input. -/
  | start
  /-- Ended by a closing brace. -/
  | brace
  /-- Ended by a right fence, whose delimiter the frame takes over. -/
  | fence
  /-- Ended by the end of the same environment. -/
  | environment
  /-- Ended by a closing brace; finished nodes are taken in. -/
  | braket
deriving DecidableEq, Repr, Inhabited

/-- The rule of the basic kind with a given name. -/
def ClosingRule.ofName? (name : String) : Option ClosingRule :=
  Fields.get? [("start", start), ("open", brace), ("left", fence), ("begin", environment),
    ("braket", braket)] name

/-- What a finished frame becomes. -/
inductive BuildRule where
  /-- An atom over the row of its nodes. -/
  | atom
  /-- A row between stretchy fences. -/
  | fence
  /-- A row that names its environment. -/
  | environment
  /-- A row between the fences of a bra-ket. -/
  | braket
deriving DecidableEq, Repr, Inhabited

/-- The rule of the basic kind with a given name. -/
def BuildRule.ofName? (name : String) : Option BuildRule :=
  Fields.get? [("open", atom), ("left", fence), ("begin", environment), ("braket", braket)] name

/-- How a kind of item behaves. -/
structure FrameKind where
  name : String
  rule : Option ClosingRule := none
  build : Option BuildRule := none
  isOpen : Bool := false
  isClose : Bool := false
  isFinal : Bool := false
  /-- What is said of the closing items that the frame rejects, by their kinds. -/
  wordings : Fields String := []
deriving DecidableEq, Repr, Inhabited

/-- The kinds of item that are known, by name. -/
abbrev FrameKinds := Fields FrameKind

/-- The known kinds and one more, which takes the place of one of the same name. -/
def FrameKinds.register (kinds : FrameKinds) (kind : FrameKind) : FrameKinds :=
  Fields.set kinds kind.name kind

/-- An item of the parse stack. -/
structure Frame where
  kind : FrameKind
  properties : Fields Value := []
  /-- The properties it was made with. -/
  openedWith : Fields Value := []
  /-- Its nodes, `none` where a finished item held none. -/
  nodes : List (Option Formula) := []
  /-- Where the item was read. -/
  offset : Option Int := none
deriving Repr, Inhabited

/-- What an incoming item does to the frame on top. -/
inductive Verdict where
  /-- The item stays above the frame. -/
  | keep
  /-- The item is spent. -/
  | absorb
  /-- The frame is finished; this item takes its place. -/
  | close (result : Frame)
deriving Repr, Inhabited

/-- A new item of a known kind. -/
def FrameKinds.create (kinds : FrameKinds) (kind : String) (properties : Fields Value) :
    Except Failure Frame :=
  match kinds.get? kind with
  | none => .error (.ofCause (.unknownKind kind))
  | some spec => .ok { kind := spec, properties, openedWith := properties }

/-- A finished node, or a gap, as an item. -/
def FrameKinds.wrap (kinds : FrameKinds) (f : Option Formula) : Except Failure Frame :=
  (kinds.create "mml" []).map fun frame => { frame with nodes := [f] }

namespace Frame

/-- The property under a name, or `fallback`. -/
def get (frame : Frame) (name : String) (fallback : Value) : Value :=
  (frame.properties.get? name).getD fallback

/-- The frame with a property set. -/
def set (frame : Frame) (name : String) (value : Value) : Frame :=
  { frame with properties := frame.properties.set name value }

/-- Whether the item is of the kind with this name. -/
def isKind (frame : Frame) (name : String) : Bool := frame.kind.name = name

/-- The first node of a frame, if it is there. -/
def first (frame : Frame) : Option Formula := frame.nodes.head?.join

/-- The nodes of a frame, which must not have a gap. -/
def formulas (frame : Frame) : Except Failure (List Formula) :=
  match frame.nodes.mapM id with
  | some fs => .ok fs
  | none => .error (.fault .missingNode)

/-- The nodes of a frame as an inferred row. -/
def grouped (frame : Frame) : Except Failure Formula := frame.formulas.map .inferredRow

/-- The nodes of a frame as one node: the only one, or an inferred row. -/
def row (frame : Frame) : Except Failure (Option Formula) :=
  match frame.nodes with
  | [f] => .ok f
  | _ => frame.grouped.map some

/-- The node that a finished frame becomes. -/
def result (frame : Frame) : Except Failure (Option Formula) :=
  match frame.kind.build with
  | none => frame.row
  | some .atom => do
    let row ← frame.grouped
    return some (.node "TeXAtom" [row] [] (some .ord))
  | some .environment => do
    let row ← frame.grouped
    return some (.node "mrow" [row] [("data-environment", frame.get "env" .absent)] none)
  | some .fence => do
    let row ← frame.grouped
    return some (.fenced true (frame.get "delim" .absent) row (frame.get "close" .absent))
  | some .braket => do
    match ← frame.row with
    | none => .error (.fault .missingNode)
    | some row =>
      return some (.fenced (frame.get "stretchy" .absent).holds (frame.get "open" .absent) row
        (frame.get "close" .absent))

/-- The frame ends: its node replaces it. -/
def finish (kinds : FrameKinds) (frame : Frame) : Except Failure Verdict := do
  let built ← frame.result
  let item ← kinds.wrap built
  return .close item

/-- The frame with the first node of an item taken in. -/
def take (frame item : Frame) : Frame := { frame with nodes := frame.nodes ++ [item.first] }

/-- What happens to an item that no closing rule speaks of: a closing item is an error, a
finished node is taken in, and anything else stays above the frame. -/
def checkDefault (frame item : Frame) : Frame × Except Failure Verdict :=
  if item.kind.isClose then
    if item.isKind "stop" then
      (frame, .error (.tex ⟨.unterminated frame.kind.name frame.openedWith, frame.offset⟩))
    else
      (frame, .error (.ofCause (.unexpectedClose frame.kind.name
        (item.get "name" (.text item.kind.name)) (frame.kind.wordings.get? item.kind.name))))
  else if item.kind.isFinal then (frame.take item, .ok .absorb)
  else (frame, .ok .keep)

/-- The command that ends the environment `env`. -/
def endOf (env : Value) : String := "\\end\x7b" ++ env.plain ++ "\x7d"

/-- The command that begins the environment `env`. -/
def beginOf (env : Value) : String := "\\begin\x7b" ++ env.plain ++ "\x7d"

/-- What an incoming item does to a frame: the frame afterwards, and the verdict. -/
def check (kinds : FrameKinds) (frame item : Frame) : Frame × Except Failure Verdict :=
  match frame.kind.rule with
  | none => frame.checkDefault item
  | some .start =>
    if item.isKind "stop" then (frame, frame.finish kinds) else frame.checkDefault item
  | some .brace =>
    if item.isKind "close" then (frame, frame.finish kinds) else frame.checkDefault item
  | some .fence =>
    if item.isKind "right" then
      let closed := frame.set "close" (item.get "delim" .absent)
      (closed, closed.finish kinds)
    else frame.checkDefault item
  | some .environment =>
    if item.isKind "end" then
      let env := item.get "env" .absent
      let own := frame.get "env" .absent
      if env.agrees own then (frame, frame.finish kinds)
      else
        (frame, .error (.ofCause (.unexpectedClose frame.kind.name (.text (endOf env))
          (some (beginOf own ++ " ended with " ++ endOf env)))))
    else frame.checkDefault item
  | some .braket =>
    if item.isKind "close" then (frame, frame.finish kinds)
    else if item.isKind "mml" then (frame.take item, .ok .absorb)
    else frame.checkDefault item

end Frame

end Formulary
