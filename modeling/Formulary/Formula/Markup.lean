import Formulary.Formula.Basic
import Formulary.Text.Escape

/-! # Formulas as markup

`Formula.markup` writes a formula as MathML text: every node is a pair of tags around its
text or its children, and an inferred row is only its children. -/

namespace Formulary.Formula

/-- The attributes of a start tag. -/
def markupAttributes (attributes : Fields Value) : String :=
  String.join (attributes.map fun (name, value) =>
    " " ++ name ++ "=\"" ++ Text.escapeQuoted value.attributeText ++ "\"")

/-- An element with a given content. -/
def markupElement (kind : String) (attributes : Fields Value) (content : String) : String :=
  "<" ++ kind ++ markupAttributes attributes ++ ">" ++ content ++ "</" ++ kind ++ ">"

mutual

/-- The formula as MathML text. -/
def markup : Formula → String
  | ⟨kind, children, attributes, text, texClass, inferred⟩ =>
    let f : Formula := ⟨kind, children, attributes, text, texClass, inferred⟩
    let content := if f.isToken then Text.escape text.plain else markupAll children
    if inferred then content else markupElement f.shownKind.plain f.shownAttributes content

/-- The formulas of a list as MathML text, one after the other. -/
def markupAll : List Formula → String
  | [] => ""
  | f :: rest => f.markup ++ markupAll rest

end

theorem markup_eq (f : Formula) :
    f.markup =
      let content := if f.isToken then Text.escape f.text.plain else markupAll f.children
      if f.inferred then content
      else markupElement f.shownKind.plain f.shownAttributes content := by
  cases f
  simp [markup]

end Formulary.Formula
