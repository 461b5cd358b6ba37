import Formulary.Tex.Stack
import Formulary.Text.Slice

/-! # Working on a stack by hand

A bench is a parse stack whose items have numbers, so that one item can be pushed more than
once and be looked at between pushes: what happens to an item shows wherever it stands.
`Bench.push` follows the rules of `Stack.push`. -/

namespace Formulary

/-- An item as it is asked for. -/
inductive Part where
  /-- No item. -/
  | nothing
  /-- A finished node. -/
  | node (f : Formula)
  /-- An item that was put aside under a name. -/
  | held (name : String)
  /-- A new item. -/
  | new (kind : String) (properties : Fields Value) (nodes : List Formula) (offset : Option Int)
deriving Repr, Inhabited

/-- An item ready to be pushed. -/
inductive Ready where
  | nothing
  | node (f : Formula)
  | item (number : Nat)
deriving Repr, Inhabited

/-- A stack with numbered items. -/
structure Bench where
  kinds : FrameKinds
  /-- Every item, in the order of their numbers. -/
  frames : List Frame
  /-- The numbers of the items on the stack, the top first. -/
  stack : List Nat
  /-- What was put aside. -/
  held : Fields Ready := []
deriving Repr, Inhabited

namespace Bench

/-- A stack with nothing pushed on it. -/
def ofKinds (kinds : FrameKinds) : Except Failure Bench := do
  let bottom ← kinds.create "start" []
  return { kinds, frames := [bottom], stack := [0] }

/-- The items on the stack, the bottom first. -/
def items (b : Bench) : List Frame := b.stack.reverse.filterMap fun i => b.frames[i]?

/-- The bench with one more item, and its number. -/
def add (b : Bench) (frame : Frame) : Nat × Bench :=
  (b.frames.length, { b with frames := b.frames ++ [frame] })

/-- The names that no property of a new item may have: they stand for the item itself and for
its kind. -/
def takenNames : List String := ["self", "kind"]

/-- An item made ready; a new one is made. -/
def ready (b : Bench) (part : Part) : Except Failure (Ready × Bench) :=
  match part with
  | .nothing => .ok (.nothing, b)
  | .node f => .ok (.node f, b)
  | .held name =>
    match b.held.get? name with
    | some found => .ok (found, b)
    | none => .error (.fault .noSuchNode)
  | .new kind properties nodes offset =>
    if takenNames.any fun name => (properties.get? name).isSome then .error (.fault .badValue)
    else do
      let frame ← b.kinds.create kind properties
      let (number, b) := b.add { frame with nodes := nodes.map some, offset }
      return (.item number, b)

/-- Several items made ready. -/
def readyAll (b : Bench) : List Part → Except Failure (List Ready × Bench)
  | [] => .ok ([], b)
  | part :: rest => do
    let (first, b) ← b.ready part
    let (others, b) ← b.readyAll rest
    return (first :: others, b)

/-- The items and the stack after a push of an item on a stack, with the failure that cut
it short, if any. -/
def pushOn (kinds : FrameKinds) (frames : List Frame) (item : Nat) :
    List Nat → List Frame × List Nat × Option Failure
  | [] => (frames, [item], none)
  | top :: below =>
    match frames[top]?, frames[item]? with
    | some frame, some incoming =>
      let (after, verdict) := frame.check kinds incoming
      let frames := frames.set top after
      match verdict with
      | .error failure => (frames, top :: below, some failure)
      | .ok .keep => (frames, item :: top :: below, none)
      | .ok .absorb => (frames, top :: below, none)
      | .ok (.close result) => pushOn kinds (frames ++ [result]) frames.length below
    | _, _ => (frames, top :: below, some (.fault .outOfRange))

/-- The bench after a push, with the failure that cut it short, if any. -/
def push (b : Bench) (ready : Ready) : Bench × Option Failure :=
  match ready with
  | .nothing => (b, none)
  | .node f =>
    match b.kinds.wrap f with
    | .error failure => (b, some failure)
    | .ok frame => pushNumbered (b.add frame).2 (b.add frame).1
  | .item number => pushNumbered b number
where
  /-- The push of an item with a number. -/
  pushNumbered (b : Bench) (number : Nat) : Bench × Option Failure :=
    let (frames, stack, failure) := pushOn b.kinds b.frames number b.stack
    ({ b with frames, stack }, failure)

/-- The bench after several pushes, up to the first that fails. -/
def pushAll (b : Bench) : List Ready → Bench × Option Failure
  | [] => (b, none)
  | first :: rest =>
    match b.push first with
    | (b, some failure) => (b, some failure)
    | (b, none) => b.pushAll rest

/-- The number and the frame of the item on top. -/
def top (b : Bench) : Except Failure (Nat × Frame) :=
  match b.stack with
  | [] => .error (.fault .emptyStack)
  | i :: _ =>
    match b.frames[i]? with
    | some frame => .ok (i, frame)
    | none => .error (.fault .outOfRange)

/-- The item that is the `n`th from the top, if the stack has as many. -/
def nth (b : Bench) (n : Int) : Except Failure (Option Frame) :=
  if b.stack.length < n then .ok none
  else
    match Text.atIndex? b.items (-n) with
    | some frame => .ok (some frame)
    | none => .error (.fault .outOfRange)

/-- The item on top, taken off. -/
def pop (b : Bench) : Except Failure (Frame × Bench) := do
  let (_, frame) ← b.top
  return (frame, { b with stack := b.stack.drop 1 })

/-- The item on top is changed. -/
def putTop (b : Bench) (frame : Frame) : Bench :=
  match b.stack with
  | [] => b
  | i :: _ => { b with frames := b.frames.set i frame }

/-- The item on top is asked what a ready item would do to it. -/
def check (b : Bench) (ready : Ready) : Except Failure (Bench × Except Failure Verdict) := do
  let (_, frame) ← b.top
  match ready with
  | .item number =>
    match b.frames[number]? with
    | some item =>
      let (after, verdict) := frame.check b.kinds item
      return (b.putTop after, verdict)
    | none => .error (.fault .outOfRange)
  | _ => .error (.fault .missingNode)

/-- A ready item is put aside under a name. -/
def hold (b : Bench) (name : String) (ready : Ready) : Bench :=
  { b with held := b.held.set name ready }

end Bench

/-- An item as a message shows it. -/
def Frame.literal (frame : Frame) : String :=
  "StackItem(" ++ Text.quoted frame.kind.name ++ ", " ++ frame.properties.literal ++ ", nodes=" ++
    toString frame.nodes.length ++ ")"

end Formulary
