/-! # Escaping for markup

The characters that markup gives a meaning are written as entities: `&`, `<` and `>` in
text, and also the two quotes in the attribute values of a formula. -/

namespace Formulary.Text

/-- The written form of a character of a text. -/
def textEntity : Char → List Char
  | '&' => "&amp;".toList
  | '<' => "&lt;".toList
  | '>' => "&gt;".toList
  | c => [c]

/-- The written form of a character of a quoted value. -/
def quotedEntity : Char → List Char
  | '"' => "&quot;".toList
  | '\'' => "&#x27;".toList
  | c => textEntity c

/-- A text as markup writes it between tags. -/
def escape (s : String) : String := String.ofList (s.toList.flatMap textEntity)

/-- A text as markup writes it between double quotes. -/
def escapeQuoted (s : String) : String := String.ofList (s.toList.flatMap quotedEntity)

end Formulary.Text
