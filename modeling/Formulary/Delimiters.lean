import Formulary.Sighting
import Formulary.Text.Blank
import Formulary.Text.Slice

/-! # Mathematics between delimiters

`Delimiters` says which pairs of delimiters enclose mathematics in running text, and
`Delimiters.find` finds what they enclose.  The search reads a text from left to right.
Where an opening delimiter begins, the longest one that fits counts; its closing delimiter
is sought outside braces, a backslash keeping the character after it from being seen
(`closing?`).  An environment is mathematics together with its two ends, and an escaped
backslash or dollar sign is none.

The three parts that `closing?` cuts a text into are the text (`closing?_eq_some`). -/

namespace Formulary

/-- The delimiters that enclose mathematics. -/
structure Delimiters where
  /-- Openers and closers of mathematics within a line. -/
  inline : List (String × String) := [("$", "$"), ("\\(", "\\)")]
  /-- Openers and closers of mathematics set apart. -/
  display : List (String × String) := [("$$", "$$"), ("\\[", "\\]")]
  /-- Whether a backslash before a dollar sign or a backslash makes it plain text. -/
  escapes : Bool := true
  /-- Whether an environment is mathematics. -/
  environments : Bool := true
deriving DecidableEq, Repr, Inhabited

namespace Delimiters

/-! ### Closing -/

/-- What ends a piece of mathematics. -/
inductive Closer where
  | delimiter (text : List Char)
  | environment (name : List Char)
deriving DecidableEq, Repr, Inhabited

/-- The name of an environment in braces. -/
def braced (name : List Char) : List Char := '\x7b' :: (name ++ ['\x7d'])

/-- The length of the closer that a text begins with. -/
def Closer.length? (closer : Closer) (s : List Char) : Option Nat :=
  match closer with
  | delimiter text => (Text.after? text s).map fun _ => text.length
  | environment name =>
    match Text.after? "\\end".toList s with
    | none => none
    | some rest =>
      (Text.after? (braced name) (rest.dropWhile Text.isBlank)).map fun _ =>
        4 + (rest.takeWhile Text.isBlank).length + (braced name).length

/-- How many of the characters after `c` are passed over together with it: those of a
closer inside braces, the one after a backslash, and none otherwise. -/
def Closer.passed (closer : Closer) (c : Char) (rest : List Char) : Nat :=
  match closer.length? (c :: rest) with
  | some (n + 1) => n
  | _ =>
    match rest with
    | [] => 0
    | d :: _ => if c = '\\' && d ≠ '\n' then 1 else 0

/-- The depth of braces after a piece of text; a surplus closing brace is ignored. -/
def depthAfter (depth : Nat) (piece : List Char) : Nat :=
  if piece = ['\x7b'] then depth + 1 else if piece = ['\x7d'] then depth - 1 else depth

/-- A text cut at a closer. -/
structure Cut where
  body : List Char
  mark : List Char
  rest : List Char
deriving DecidableEq, Repr, Inhabited

/-- The text cut at the first closer outside braces, of which `depth` are open before. -/
def closing? (closer : Closer) (depth : Nat) (s : List Char) : Option Cut :=
  match if depth = 0 then closer.length? s else none with
  | some n => some ⟨[], s.take n, s.drop n⟩
  | none =>
    match s with
    | [] => none
    | c :: rest =>
      let n := closer.passed c rest
      let piece := c :: rest.take n
      (closing? closer (depthAfter depth piece) (rest.drop n)).map fun cut =>
        { cut with body := piece ++ cut.body }
termination_by s.length
decreasing_by all_goals (simp only [List.length_cons, List.length_drop] at *; omega)

/-- Cutting a text loses nothing of it. -/
theorem closing?_eq_some {closer : Closer} {depth : Nat} {s : List Char} {cut : Cut}
    (h : closing? closer depth s = some cut) : s = cut.body ++ cut.mark ++ cut.rest := by
  fun_induction closing? closer depth s generalizing cut with
  | case1 => cases h; simp
  | case2 => simp at h
  | case3 depth c rest n piece hnone =>
    rename_i ih
    obtain ⟨inner, hinner, rfl⟩ := Option.map_eq_some_iff.1 h
    have := ih hinner
    simp only [List.append_assoc] at this ⊢
    rw [← this]
    simp [piece]

/-! ### Opening -/

/-- What begins at a place of a text that is searched for mathematics. -/
inductive Opening where
  /-- Mathematics up to a closer. -/
  | math (closer : List Char) (display : Bool)
  /-- An environment. -/
  | environment (name : List Char)
  /-- A character that is plain text. -/
  | escape
deriving DecidableEq, Repr, Inhabited

/-- Every pair of delimiters, and whether it sets mathematics apart. -/
def pairs (delims : Delimiters) : List ((String × String) × Bool) :=
  delims.inline.map (·, false) ++ delims.display.map (·, true)

/-- The openers, longer ones first. -/
def openers (delims : Delimiters) : List String :=
  (delims.pairs.map fun pair => pair.1.1).mergeSort fun a b => b.length ≤ a.length

/-- What the last pair with a given opener says of it. -/
def opening (delims : Delimiters) (opener : String) : Opening :=
  match delims.pairs.reverse.find? fun pair => pair.1.1 = opener with
  | some pair => .math pair.1.2.toList pair.2
  | none => .escape

/-- The opener that a text begins with, and how many characters it has after the first.
An empty opener begins nothing. -/
def delimiterAt? (delims : Delimiters) (s : List Char) : Option (Opening × Nat) :=
  (delims.openers.find? fun opener => opener ≠ "" && opener.toList.isPrefixOf s).map fun opener =>
    (delims.opening opener, opener.length - 1)

/-- The beginning of an environment at the head of a text. -/
def environmentAt? (s : List Char) : Option (Opening × Nat) :=
  match Text.after? "\\begin".toList s with
  | none => none
  | some rest =>
    match rest.dropWhile Text.isBlank with
    | [] => none
    | c :: inside =>
      let name := inside.takeWhile (· ≠ '\x7d')
      if c = '\x7b' && name.length < inside.length then
        some (.environment name, 5 + (rest.takeWhile Text.isBlank).length + (braced name).length)
      else none

/-- An escaped character at the head of a text. -/
def escapeAt? : List Char → Option (Opening × Nat)
  | '\\' :: '\\' :: _ => some (.escape, 1)
  | '\\' :: '$' :: _ => some (.escape, 1)
  | _ => none

/-- What begins at the head of a text, and how many characters it has after the first. -/
def opening? (delims : Delimiters) (s : List Char) : Option (Opening × Nat) :=
  match delims.delimiterAt? s with
  | some found => some found
  | none =>
    match if delims.environments then environmentAt? s else none with
    | some found => some found
    | none => if delims.escapes then escapeAt? s else none

/-! ### Finding -/

/-- The mathematics that an opening leads to, if it is closed in the text `s` after it:
what was seen, for an opening that is spelled `spelled` and starts at `start`, and the text
after it. -/
def seen? (string start : Nat) (spelled s : List Char) (opening : Opening) :
    Option (Sighting × List Char) :=
  let sighting (math opener closer : List Char) (cut : Cut) (display : Bool) : Sighting :=
    { math := String.ofList math, opener := String.ofList opener, closer := String.ofList closer
      string, start, display
      stop := start + spelled.length + cut.body.length + cut.mark.length }
  match opening with
  | .escape => none
  | .math closer display =>
    (closing? (.delimiter closer) 0 s).map fun cut =>
      (sighting cut.body spelled cut.mark cut display, cut.rest)
  | .environment name =>
    (closing? (.environment name) 0 s).map fun cut =>
      (sighting (spelled ++ cut.body ++ cut.mark) [] [] cut true, cut.rest)

theorem seen?_length {string start : Nat} {spelled s rest : List Char} {opening : Opening}
    {sighting : Sighting} (h : seen? string start spelled s opening = some (sighting, rest)) :
    rest.length ≤ s.length := by
  have key : ∀ {closer : Closer} {f : Cut → Sighting},
      (closing? closer 0 s).map (fun cut => (f cut, cut.rest)) = some (sighting, rest) →
        rest.length ≤ s.length := by
    intro closer f h
    obtain ⟨cut, hcut, heq⟩ := Option.map_eq_some_iff.1 h
    obtain ⟨-, rfl⟩ := Prod.mk.inj heq
    have := congrArg List.length (closing?_eq_some hcut)
    simp only [List.length_append] at this
    omega
  cases opening with
  | escape => simp [seen?] at h
  | math closer display => exact key h
  | environment name => exact key h

/-- What is seen in the rest `s` of a string, from offset `start` on. -/
def findFrom (delims : Delimiters) (string start : Nat) (s : List Char) : List Sighting :=
  match s with
  | [] => []
  | c :: rest =>
    match delims.opening? (c :: rest) with
    | none => delims.findFrom string (start + 1) rest
    | some (opening, more) =>
      match hseen : seen? string start (c :: rest.take more) (rest.drop more) opening with
      | none => delims.findFrom string (start + 1 + more) (rest.drop more)
      | some (sighting, others) =>
        have := seen?_length hseen
        sighting :: delims.findFrom string sighting.stop.toNat others
termination_by s.length
decreasing_by all_goals (simp only [List.length_cons, List.length_drop] at *; omega)

/-- What is seen in some strings, in order. -/
def find (delims : Delimiters) (strings : List String) : List Sighting :=
  strings.zipIdx.flatMap fun (s, string) => delims.findFrom string 0 s.toList

end Delimiters

end Formulary
