import Formulary.Session

/-! # Calls of a session

Whoever has a session can call its stages in any order, and more than once.  `Session.calls` is the
session after some calls; there is none if one of them fails. -/

namespace Formulary

/-- A call of a session. -/
inductive Call where
  | discover (containers : Option (List NodeId))
  | compile
  | typeset
  | update
  | render
  | remove (restore : Bool)
  | reset
deriving DecidableEq, Repr, Inhabited

namespace Session

/-- The session after a call. -/
def call (s : Session) : Call → Except Fault Session
  | .discover containers => s.discover containers
  | .compile => s.compile
  | .typeset => s.typeset
  | .update => s.update
  | .render => s.render
  | .remove restore => s.removeFromDocument restore
  | .reset => .ok s.reset

/-- The session after some calls in turn. -/
def calls (s : Session) : List Call → Except Fault Session
  | [] => .ok s
  | c :: rest => do
    let s ← s.call c
    s.calls rest

end Session

end Formulary
