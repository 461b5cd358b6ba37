import Formulary.Tex.Error

/-! # Failures

An operation fails in one of two ways: the TeX it reads is wrong (`TexError`), which a
session records and survives, or a caller asks for something that does not exist
(`Fault`), which ends the work. -/

namespace Formulary

/-- A request that cannot be met. -/
inductive Fault where
  /-- The parse stack has no frame on it. -/
  | emptyStack
  /-- An item that should carry a node carries none. -/
  | missingNode
  /-- A value that does not suit its use: an argument of a meaning, or the name of a
  property. -/
  | badValue
  /-- A frame whose count of bars or whose bound is not a number. -/
  | missingBound
  /-- A filter or a renderer applied to the wrong kind of data. -/
  | wrongData
  /-- A reference to a node that is not there. -/
  | noSuchNode
  /-- A node without a parent where its place in a parent is needed. -/
  | noParent
  /-- A node that would become its own descendant. -/
  | cycle
  /-- An index outside a list. -/
  | outOfRange
deriving DecidableEq, Repr

/-- Why an operation failed. -/
inductive Failure where
  | tex (error : TexError)
  | fault (fault : Fault)
deriving DecidableEq, Repr

namespace Failure

/-- A TeX error whose place is not yet known. -/
def ofCause (cause : TexCause) : Failure := tex { cause }

/-- The failure with a place for a TeX error that has none. -/
def locate (failure : Failure) (offset : Int) : Failure :=
  match failure with
  | tex e => tex (e.locate offset)
  | fault f => fault f

end Failure

end Formulary
