import Formulary.Value

/-! # Fields

An ordered record: pairs of a name and a content, each name once.  Setting a name that is
present changes its content and keeps its place; a new name goes to the end. -/

namespace Formulary

/-- Named contents in the order in which the names were first given. -/
abbrev Fields (α : Type) := List (String × α)

namespace Fields

variable {α : Type}

/-- The content under a name. -/
def get? (fields : Fields α) (name : String) : Option α :=
  match fields with
  | [] => none
  | (other, content) :: rest => if other = name then some content else get? rest name

/-- The fields with `content` under `name`. -/
def set (fields : Fields α) (name : String) (content : α) : Fields α :=
  match fields with
  | [] => [(name, content)]
  | (other, old) :: rest =>
    if other = name then (name, content) :: rest else (other, old) :: set rest name content

/-- The record that a sequence of assignments leaves. -/
def ofPairs (pairs : List (String × α)) : Fields α :=
  pairs.foldl (fun fields pair => fields.set pair.1 pair.2) []

@[simp] theorem get?_set_self (fields : Fields α) (name : String) (content : α) :
    (fields.set name content).get? name = some content := by
  induction fields with
  | nil => simp [set, get?]
  | cons pair rest ih =>
    obtain ⟨other, old⟩ := pair
    by_cases h : other = name <;> simp [set, get?, h, ih]

theorem get?_set_of_ne (fields : Fields α) {name other : String} (content : α)
    (h : other ≠ name) : (fields.set name content).get? other = fields.get? other := by
  induction fields with
  | nil => simp [set, get?, h.symm]
  | cons pair rest ih =>
    obtain ⟨first, old⟩ := pair
    by_cases hf : first = name
    · subst hf
      simp [set, get?, h.symm]
    · by_cases ho : first = other <;> simp [set, get?, hf, ho, h, ih]

/-- The fields as a message lists them. -/
def literal (fields : Fields Value) : String :=
  "\x7b" ++ ", ".intercalate (fields.map fun (name, content) =>
    Text.quoted name ++ ": " ++ content.literal) ++ "\x7d"

end Fields

end Formulary
