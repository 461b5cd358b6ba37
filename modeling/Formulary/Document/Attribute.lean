import Formulary.Fields
import Formulary.Text.Blank
import Formulary.Text.Lowercase

/-! # Attributes of elements

The value of an attribute is a text.  HTML may say in which encoding it is written: a `meta`
element names the encoding in its attribute `charset`, or else in the header that its attribute
`content` spells out.  Markup is always written in the same encoding, so a value that declares
one is written as declaring that, whatever name it holds (`Attribute.written`).

What a value declares is settled when its element is made (`Attribute.ofValues`).  A value that
is set later is a text and nothing more. -/

namespace Formulary

/-- The value of an attribute. -/
inductive Attribute where
  | plain (value : String)
  /-- The name of the encoding of the document. -/
  | encoding (value : String)
  /-- A header, which may name the encoding of the document. -/
  | header (value : String)
deriving DecidableEq, Repr, Inhabited

instance : Coe String Attribute := ⟨.plain⟩

/-! ### Headers -/

namespace Charset

/-- The encoding in which markup is written. -/
def ours : String := "utf-8"

/-- What stands before the name of an encoding in a header. -/
def mark : List Char := "charset=".toList

/-- Where the reader of a header is. -/
inductive Place where
  /-- At the beginning of a line or after a semicolon, or after nothing but blanks there. -/
  | start
  | inside
  /-- In the name of an encoding, which lasts up to a semicolon. -/
  | name
deriving DecidableEq, Repr

/-- The place after one more character, if no name begins there. -/
def Place.next (place : Place) (c : Char) : Place :=
  if c = ';' || c = '\n' || (place = .start && Text.isBlank c) then .start else .inside

/-- A header with our encoding in place of each that it names, read from some place on. -/
def renamedFrom (place : Place) : List Char → List Char
  | [] => []
  | c :: rest =>
    if place = .name && c ≠ ';' then renamedFrom .name rest
    else if place = .start && mark.isPrefixOf (c :: rest) then
      mark ++ ours.toList ++ renamedFrom .name rest
    else c :: renamedFrom (place.next c) rest

/-- A header with our encoding in place of each that it names. -/
def renamed (header : String) : String := String.ofList (renamedFrom .start header.toList)

end Charset

/-! ### Attributes -/

namespace Attribute

/-- The text of a value. -/
def value : Attribute → String
  | plain value => value
  | encoding value => value
  | header value => value

/-- The text with which markup shows a value. -/
def written : Attribute → String
  | plain value => value
  | encoding _ => Charset.ours
  | header value => Charset.renamed value

/-- Whether the attributes of a `meta` element say that its content is a header that may name
an encoding. -/
def haveHeader (values : Fields String) : Bool :=
  (values.get? "http-equiv").map Text.lowercase = some "content-type"

/-- The attributes of a new element with given values. -/
def ofValues (tag : String) (values : Fields String) : Fields Attribute :=
  values.map fun (name, value) => (name,
    if tag ≠ "meta" then plain value
    else if name = "charset" then encoding value
    else if name = "content" && (values.get? "charset").isNone && haveHeader values then
      header value
    else plain value)

end Attribute

end Formulary
