import Formulary.Tex.Frame

/-! # The parse stack

The stack is the list of its items, the top first.  `push` asks the top what the item does
to it: the item goes on the stack, or is spent, or ends the top frame, whose node is then
pushed on what is below.  A push that fails leaves the stack as it was up to there, so the
outcome of a push is a stack together with the failure that cut it short, if any. -/

namespace Formulary

/-- The items of the parse stack, the top first. -/
abbrev Stack := List Frame

/-- What a push leaves. -/
structure Pushed where
  stack : Stack
  failure : Option Failure := none
deriving Repr, Inhabited

namespace Stack

/-- The stack with one item pushed. -/
def push (kinds : FrameKinds) (stack : Stack) (item : Frame) : Pushed :=
  match stack with
  | [] => { stack := [item] }
  | top :: below =>
    let (after, verdict) := top.check kinds item
    match verdict with
    | .error failure => { stack := after :: below, failure := some failure }
    | .ok .keep => { stack := item :: after :: below }
    | .ok .absorb => { stack := after :: below }
    | .ok (.close result) => push kinds below result

/-- The stack with several items pushed in order, up to the first that fails. -/
def pushAll (kinds : FrameKinds) (stack : Stack) (items : List Frame) : Pushed :=
  match items with
  | [] => { stack }
  | item :: rest =>
    let first := stack.push kinds item
    match first.failure with
    | some _ => first
    | none => pushAll kinds first.stack rest

/-- The stack before anything is pushed: one frame for the whole text. -/
def initial (kinds : FrameKinds) : Except Failure Stack := do
  let bottom ← kinds.create "start" []
  return [bottom]

end Stack

/-- The stack of a push that succeeded. -/
def Pushed.toExcept (pushed : Pushed) : Except Failure Stack :=
  match pushed.failure with
  | none => .ok pushed.stack
  | some failure => .error failure

/-! ### The basic kinds -/

namespace FrameKinds

/-- The frame of the whole text. -/
def startKind : FrameKind :=
  { name := "start", rule := some .start, isOpen := true, wordings := [
      ("close", "Extra close brace or missing open brace"),
      ("right", "Missing \\left or extra \\right"),
      ("end", "Missing \\begin or extra \\end")] }

/-- A group in braces. -/
def openKind : FrameKind :=
  { name := "open", rule := some .brace, build := some .atom, isOpen := true, wordings := [
      ("right", "Extra \\right or missing close brace"),
      ("end", "Extra \\end or missing close brace")] }

/-- A group between fences. -/
def leftKind : FrameKind :=
  { name := "left", rule := some .fence, build := some .fence, isOpen := true, wordings := [
      ("close", "Extra close brace or missing \\right"),
      ("end", "Extra \\end or missing \\right")] }

/-- An environment. -/
def beginKind : FrameKind :=
  { name := "begin", rule := some .environment, build := some .environment, isOpen := true
    wordings := [
      ("close", "Extra close brace or missing \\end"),
      ("right", "Missing \\left or extra \\right")] }

/-- A bra-ket, or a set. -/
def braketKind : FrameKind :=
  { name := "braket", rule := some .braket, build := some .braket, isOpen := true, wordings := [
      ("right", "Missing \\left or extra \\right"),
      ("end", "Extra \\end or missing close brace")] }

/-- The kinds that every reader knows. -/
def base : FrameKinds := [
  startKind, { name := "stop", isClose := true }, { name := "mml", isFinal := true },
  openKind, { name := "close", isClose := true },
  leftKind, { name := "right", isClose := true },
  beginKind, { name := "end", isClose := true }].map fun kind => (kind.name, kind)

end FrameKinds

end Formulary
