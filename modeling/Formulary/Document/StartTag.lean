import Formulary.Document.Reference
import Formulary.Text.Blank
import Formulary.Text.Lowercase

/-! # Start tags

A start tag is a name and attributes, each a name and perhaps a value.  Tags are read as they
come: between attributes stand blanks and slashes, a value may be written without quotes, and
a quote that is never closed begins no value (`assigned?`).  `StartTag.read` tells a tag from
what only begins like one. -/

namespace Formulary

/-- A start tag. -/
structure StartTag where
  name : String
  attributes : List (String × String)
  /-- Whether the tag says that the element ends with it. -/
  closed : Bool
deriving DecidableEq, Repr, Inhabited

namespace StartTag

/-- A name in small letters. -/
def lowered (name : List Char) : String := Text.lowercase (String.ofList name)

/-- A character of the name of an element. -/
def isNameChar (c : Char) : Bool :=
  !(c = '\t' || c = '\n' || c = '\x0c' || c = '\r' || c = ' ' || c = '/' || c = '>' || c = '\x00')

/-- A quote. -/
def isQuote (c : Char) : Bool := c = '"' || c = '\''

/-- The text after what may stand between attributes: blanks, and slashes that do not end the
tag. -/
def afterGap : List Char → List Char
  | [] => []
  | c :: rest =>
    if Text.isBlank c || (c = '/' && rest.head? ≠ some '>') then afterGap rest else c :: rest

/-- A value without quotes, and the text after it. -/
def bareValue (s : List Char) : List Char × List Char :=
  let isValueChar := fun c => !(Text.isBlank c || c = '>')
  (s.takeWhile isValueChar, s.dropWhile isValueChar)

/-- The value after one or more equals signs, and the text after it.  What begins with a quote
that is never closed is not the value: the value is empty if a blank comes before the quote,
and begins with the last equals sign if there are several. -/
def assigned? (s : List Char) : Option (List Char × List Char) :=
  match s.dropWhile Text.isBlank with
  | '=' :: rest =>
    let signed := rest.dropWhile (· = '=')
    match signed.dropWhile Text.isBlank with
    | [] => some ([], [])
    | c :: body =>
      if !isQuote c then some (bareValue (c :: body))
      else if c ∈ body then some (body.takeWhile (· ≠ c), (body.dropWhile (· ≠ c)).drop 1)
      else if signed ≠ c :: body then some ([], signed)
      else if signed ≠ rest then some (bareValue ('=' :: signed))
      else none
  | _ => none

/-- The value that is assigned at the head of a text, if one is, and the text after it. -/
def assignment (s : List Char) : Option (List Char) × List Char :=
  match assigned? s with
  | some (value, after) => (some value, after)
  | none => (none, s)

/-- Whether another attribute may begin where the text `s` goes on as `after`: it must follow a
quote, a blank or a slash. -/
def opensAttribute (s after : List Char) : Bool :=
  (s[s.length - after.length - 1]?).any isQuote || decide (afterGap after ≠ after)

theorem length_dropWhile_le (p : Char → Bool) (s : List Char) :
    (s.dropWhile p).length ≤ s.length := (List.dropWhile_suffix p).length_le

theorem afterGap_length (s : List Char) : (afterGap s).length ≤ s.length := by
  induction s with
  | nil => simp [afterGap]
  | cons c rest ih =>
    unfold afterGap
    split
    · exact Nat.le_succ_of_le ih
    · exact Nat.le_refl _

theorem assigned?_length {s value after : List Char} (h : assigned? s = some (value, after)) :
    after.length ≤ s.length := by
  have hs := length_dropWhile_le Text.isBlank s
  unfold assigned? at h
  split at h
  · rename_i rest heq
    have h1 := length_dropWhile_le (· = '=') rest
    rw [heq] at hs
    simp only [List.length_cons] at hs
    simp only at h
    have h2 := length_dropWhile_le Text.isBlank (rest.dropWhile (· = '='))
    split at h
    · cases h
      exact Nat.zero_le _
    · rename_i c body hb
      rw [hb] at h2
      simp only [List.length_cons] at h2
      have h3 := length_dropWhile_le (· ≠ c) body
      have h4 := length_dropWhile_le (fun c => !(Text.isBlank c || c = '>')) (c :: body)
      have h5 := length_dropWhile_le (fun c => !(Text.isBlank c || c = '>'))
        ('=' :: rest.dropWhile (· = '='))
      simp only [List.length_cons] at h4 h5
      split at h
      · cases h; exact Nat.le_trans h4 (by omega)
      · split at h
        · cases h
          simp only [List.length_drop]
          omega
        · split at h
          · cases h; omega
          · split at h
            · cases h; exact Nat.le_trans h5 (by omega)
            · cases h
  · cases h

theorem assignment_length (s : List Char) : (assignment s).2.length ≤ s.length := by
  unfold assignment
  split
  · exact assigned?_length (by assumption)
  · exact Nat.le_refl _

/-- A character of the name of an attribute, after the first one. -/
def isAttributeChar (c : Char) : Bool := !(Text.isBlank c || c = '/' || c = '=' || c = '>')

/-- The attributes at the head of a text as they are written, if one may begin there, and the
text after them. -/
def attributesFrom (opens : Bool) (s : List Char) : List (String × List Char) × List Char :=
  match s with
  | [] => ([], [])
  | c :: rest =>
    if !opens || Text.isBlank c || c = '/' || c = '>' then ([], c :: rest)
    else
      let name := c :: rest.takeWhile isAttributeChar
      let found := assignment (rest.dropWhile isAttributeChar)
      let (others, after) := attributesFrom (opensAttribute (c :: rest) found.2) (afterGap found.2)
      ((lowered name, found.1.getD []) :: others, after)
termination_by s.length
decreasing_by
  have h1 := afterGap_length (assignment (rest.dropWhile isAttributeChar)).2
  have h2 := assignment_length (rest.dropWhile isAttributeChar)
  have h3 := length_dropWhile_le isAttributeChar rest
  simp only [List.length_cons]
  omega

/-- The attributes that are written, with their references resolved, unless one cannot be
read. -/
def resolved? (written : List (String × List Char)) : Option (List (String × String)) :=
  written.mapM fun (name, value) => return (name, String.ofList (← Reference.resolve? value))

/-- What a text that begins like a start tag turns out to be. -/
inductive Reading where
  | tag (tag : StartTag) (after : List Char)
  /-- Text that only looks like a tag. -/
  | text (value after : List Char)
  /-- A tag that does not end. -/
  | unfinished
  /-- A tag, or text that looks like one, with a value that cannot be read. -/
  | refused
deriving Repr, Inhabited

/-- What the text after a `<` is that begins with a letter. -/
def read (s : List Char) : Reading :=
  let name := s.takeWhile isNameChar
  let tail := s.dropWhile isNameChar
  let (written, rest) := attributesFrom (opensAttribute s tail) (afterGap tail)
  if rest = [] || rest.head? = some '=' then .unfinished
  else
    match resolved? written, rest with
    | none, _ => .refused
    | some attributes, '>' :: after => .tag ⟨lowered name, attributes, false⟩ after
    | some attributes, '/' :: '>' :: after => .tag ⟨lowered name, attributes, true⟩ after
    | some _, rest => .text ('<' :: s.take (s.length - rest.length)) rest

end StartTag

end Formulary
