/-! # Document order

Every piece of mathematics has a key, a list of integers, and keys are compared from the
left; a key that begins another one goes before it.  `mergeByKey` puts incoming things into
a list that is kept in this order: they are sorted among themselves, and the smaller head
of the two lists is taken again and again, the list's own on a tie. -/

namespace Formulary

/-- A position in document order. -/
abbrev Key := List Int

/-- Whether a key is no later than another. -/
def Key.le (a b : Key) : Bool := !decide (b < a)

section

variable {α : Type}

/-- Things in the order of their keys; those of one key keep their order. -/
def sortByKey (key : α → Key) (things : List α) : List α :=
  things.mergeSort fun a b => (key a).le (key b)

/-- A list with incoming things put in their places. -/
def mergeByKey (key : α → Key) (own incoming : List α) : List α :=
  List.merge own (sortByKey key incoming) fun a b => (key a).le (key b)

end

end Formulary
