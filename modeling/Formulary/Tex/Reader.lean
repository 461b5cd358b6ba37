import Formulary.Tex.Action
import Formulary.Tex.Token

/-! # Reading TeX

A reader consumes tokens from the front of its input and builds frames on its stack.
`Reader.perform` carries out the meaning of one token; `Reader.run` repeats it until the
input is exhausted, and `readTex` reads a whole text.

A template puts its expansion in front of the input, so the input can grow.  It can do so
only as often as the limit on expansions allows: every step either uses up an expansion or
leaves less input (`Reader.perform_within`), which is why reading ends. -/

namespace Formulary

/-- The state of a reader between two tokens. -/
structure Reader where
  stack : Stack
  /-- The tokens not yet read. -/
  input : List Token
  /-- How many expansions are still allowed. -/
  expansions : Nat
deriving Repr, Inhabited

namespace Reader

/-! ### Consuming tokens -/

/-- The tokens up to the brace that closes a group of which `depth + 1` braces are open,
and the tokens after that brace. -/
def groupEnd? (depth : Nat) : List Token → Option (List Token × List Token)
  | [] => none
  | t :: rest =>
    if t.kind = .closeBrace then
      match depth with
      | 0 => some ([], rest)
      | d + 1 => (groupEnd? d rest).map fun (inside, after) => (t :: inside, after)
    else if t.kind = .openBrace then
      (groupEnd? (depth + 1) rest).map fun (inside, after) => (t :: inside, after)
    else (groupEnd? depth rest).map fun (inside, after) => (t :: inside, after)

/-- The argument of a command at the front of some tokens, a group without its braces or
one token, and the tokens after it. -/
def argument (command : String) : List Token → Except TexCause (List Token × List Token)
  | [] => .error (.missingArgument command)
  | t :: rest =>
    if t.kind = .closeBrace then .error .extraCloseBrace
    else if t.kind = .openBrace then
      match groupEnd? 0 rest with
      | some found => .ok found
      | none => .error .missingCloseBrace
    else .ok ([t], rest)

/-- Several arguments in a row. -/
def arguments (command : String) (n : Nat) (input : List Token) :
    Except TexCause (List (List Token) × List Token) :=
  match n with
  | 0 => .ok ([], input)
  | n + 1 => do
    let (first, input) ← argument command input
    let (others, input) ← arguments command n input
    return (first :: others, input)

/-- The delimiter at the front of some tokens, and the tokens after it. -/
def delimiter (command : String) : List Token → Except TexCause (String × List Token)
  | [] => .error (.missingDelimiter command)
  | t :: rest =>
    match Vocabulary.delimiters.get? t.text with
    | some fence => .ok (fence, rest)
    | none => .error (.missingDelimiter command)

/-- The spellings of some tokens, one after the other. -/
def spelling (tokens : List Token) : String := String.join (tokens.map Token.text)

/-- The number of a parameter token, counted from zero. -/
def parameterIndex (t : Token) : Nat :=
  match t.text.toList with
  | _ :: d :: _ => d.toNat - '1'.toNat
  | _ => 0

/-- The tokens of a template with the parameters replaced by arguments.  A token of the
template stands where the command stands; the tokens of an argument keep their places. -/
def substitute (command : Token) (arguments : List (List Token)) :
    List Token → Except TexCause (List Token)
  | [] => .ok []
  | t :: rest =>
    if t.kind = .parameter then
      match arguments[parameterIndex t]? with
      | none => .error .illegalParameter
      | some argument => do
        let others ← substitute command arguments rest
        return argument ++ others
    else do
      let others ← substitute command arguments rest
      return { t with start := command.start } :: others

/-! ### The meaning of one token -/

/-- The token's meaning: what the vocabulary says, or what tokens of its kind mean. -/
def meaning (vocabulary : Vocabulary) (t : Token) : Except TexCause Action :=
  if t.isCommand then
    match vocabulary.find? .command (String.ofList (t.text.toList.drop 1)) with
    | some action => .ok action
    | none => .error (.undefinedCommand t.text)
  else
    match vocabulary.find? .character t.text with
    | some action => .ok action
    | none => .ok (match t.kind with
      | .letter => .identifier
      | .number => .number
      | .parameter => .illegalParameter
      | _ => .other)

/-- The reader with an item pushed that was read at `offset`. -/
def pushItem (d : Dialect) (offset : Nat) (r : Reader) (item : Frame) : Except Failure Reader := do
  let stack ←
    (r.stack.push d.kinds { item with offset := some (item.offset.getD offset) }).toExcept
  return { r with stack }

/-- The reader with a new item pushed that was read at `offset`. -/
def pushNew (d : Dialect) (offset : Nat) (r : Reader) (kind : String) (properties : Fields Value) :
    Except Failure Reader := do
  let item ← d.kinds.create kind properties
  r.pushItem d offset item

/-- The reader with a finished node pushed. -/
def pushNode (d : Dialect) (r : Reader) (f : Formula) : Except Failure Reader := do
  let item ← d.kinds.wrap f
  let stack ← (r.stack.push d.kinds item).toExcept
  return { r with stack }

/-- The reader with several finished nodes pushed. -/
def pushNodes (d : Dialect) (r : Reader) : List Formula → Except Failure Reader
  | [] => .ok r
  | f :: rest => do
    let r ← r.pushNode d f
    pushNodes d r rest

/-- A bar that separates nothing. -/
def plainBar (spelling : String) : Formula :=
  .token "mo" spelling [("stretchy", .truth false)] (some .ord)

/-- A bar that separates the parts of a bra-ket. -/
def separator (spelling : String) (stretchy : Bool) : Formula :=
  .token "mo" spelling [("stretchy", .truth stretchy), ("braketbar", .truth true)] none

/-- The spelling of two bars in one. -/
def doubleBar : String := "∥"

/-- The spelling of a separator that begins as `single`, and the input after it: a bar that
another bar follows takes it in. -/
def mergeBars (single : String) : List Token → String × List Token
  | [] => (single, [])
  | next :: rest =>
    if single = "|" && next.text = "|" then (doubleBar, rest) else (single, next :: rest)

/-- A bar that separates the parts of the frame `top`.  A stretchy one stands between two
empty atoms, so that the parts on its two sides are sized apart. -/
def separate (d : Dialect) (single : String) (count : Int) (top : Frame) (below : Stack)
    (r : Reader) : Except Failure Reader :=
  let (spelling, input) := mergeBars single r.input
  if (top.get "stretchy" .absent).holds then
    let counted := top.set "barcount" (.integer (count + 1))
    pushNodes d { r with stack := counted :: below, input } [
      .node "TeXAtom" [] [] (some .closing), separator spelling true,
      .node "TeXAtom" [] [] (some .opening)]
  else pushNode d { r with input } (separator spelling false)

/-- A bar: a separator in a bra-ket that still takes bars, and a plain bar elsewhere. -/
def bar (d : Dialect) (command : String) (r : Reader) : Except Failure Reader :=
  let single := if command = "|" then "|" else doubleBar
  match r.stack with
  | [] => .error (.fault .emptyStack)
  | top :: below =>
    if top.isKind "braket" then
      match (top.get "barcount" .absent).count? with
      | none => .error (.fault .missingBound)
      | some count =>
        match (top.get "barmax" .absent).reached? count with
        | none => .error (.fault .missingBound)
        | some true => r.pushNode d (plainBar single)
        | some false => r.separate d single count top below
    else r.pushNode d (plainBar single)

/-- The tokens of a template, which must be a text. -/
def templateTokens : Value → Except Failure (List Token)
  | .text s => (tokenize s).mapError .tex
  | _ => .error (.fault .badValue)

/-- A template: its arguments are taken from the input, and its expansion is put in front
of what is left. -/
def expand (command : Token) (text : Value) (arity : Nat) (r : Reader) :
    Except Failure Reader := do
  let (arguments, input) ← (arguments command.text arity r.input).mapError .ofCause
  match r.expansions with
  | 0 => .error (.ofCause .tooManyExpansions)
  | expansions + 1 =>
    let template ← templateTokens text
    let expansion ← (substitute command arguments template).mapError .ofCause
    return { r with input := expansion ++ input, expansions }

/-- The reader after the meaning of the token `t` is carried out. -/
def perform (d : Dialect) (t : Token) (action : Action) (r : Reader) : Except Failure Reader :=
  match action with
  | .identifier => r.pushNode d (.token "mi" t.text [] none)
  | .number => r.pushNode d (.token "mn" t.text [] none)
  | .other =>
    let texClass := Vocabulary.operatorClass t.text
    let attributes :=
      if texClass = .opening || texClass = .closing then [("stretchy", .truth false)] else []
    r.pushNode d (.token "mo" t.text attributes (some texClass))
  | .openGroup => r.pushNew d t.start "open" []
  | .closeGroup => r.pushNew d t.start "close" [("name", .text t.text)]
  | .mathChar char kind => r.pushNode d (.token (kind.getD "mi") char [] none)
  | .mathOp char style =>
    let (texClass, stretchy) := style.getD (.ord, none)
    let stretchy := stretchy.getD .absent
    let attributes := if stretchy = .absent then [] else [("stretchy", stretchy)]
    r.pushNode d (.token "mo" char attributes (some texClass))
  | .left => do
    let (fence, input) ← (delimiter t.text r.input).mapError .ofCause
    pushNew d t.start { r with input } "left" [("delim", .text fence)]
  | .right => do
    let (fence, input) ← (delimiter t.text r.input).mapError .ofCause
    pushNew d t.start { r with input } "right" [("delim", .text fence), ("name", .text t.text)]
  | .begin => do
    let (env, input) ← (argument t.text r.input).mapError .ofCause
    pushNew d t.start { r with input } "begin" [("env", .text (spelling env))]
  | .finish => do
    let (env, input) ← (argument t.text r.input).mapError .ofCause
    let name := Value.text (spelling env)
    pushNew d t.start { r with input } "end" [("env", name), ("name", .text (Frame.endOf name))]
  | .space width => r.pushNode d (.token "mspace" "" [("width", width)] none)
  | .linebreak => r.pushNode d (.token "mspace" "" [("linebreak", .text "newline")] none)
  | .template text arity =>
    match (arity.getD (.integer 0)).count? with
    | some n => r.expand t text n.toNat
    | none => .error (.fault .badValue)
  | .illegalParameter => .error (.ofCause .illegalParameter)
  | .braket opener closer stretchy limit =>
    match r.input with
    | next :: input =>
      if next.kind = .openBrace then
        pushNew d t.start { r with input } "braket" [
          ("barmax", limit), ("barcount", .integer 0), ("open", opener), ("close", closer),
          ("stretchy", stretchy)]
      else .error (.ofCause (.missingArgument t.text))
    | [] => .error (.ofCause (.missingArgument t.text))
  | .bar => r.bar d t.text
  | .misused _ _ => .error (.fault .badValue)

/-- The reader after one token. -/
def step (d : Dialect) (t : Token) (r : Reader) : Except Failure Reader := do
  let action ← (meaning d.vocabulary t).mapError .ofCause
  r.perform d t action

/-! ### Every step uses something up -/

/-- `r'` has no more to do than `r`: fewer expansions left, or as many and no more input. -/
def Within (r' r : Reader) : Prop :=
  r'.expansions < r.expansions ∨
    (r'.expansions = r.expansions ∧ r'.input.length ≤ r.input.length)

theorem groupEnd?_length {depth : Nat} {input inside after : List Token}
    (h : groupEnd? depth input = some (inside, after)) : after.length < input.length := by
  induction input generalizing depth inside after with
  | nil => simp [groupEnd?] at h
  | cons t rest ih =>
    have deeper : ∀ {n : Nat}, ((groupEnd? n rest).map fun p => (t :: p.1, p.2)) =
        some (inside, after) → after.length < (t :: rest).length := by
      intro n hn
      obtain ⟨⟨inner, last⟩, hfound, heq⟩ := Option.map_eq_some_iff.1 hn
      obtain ⟨-, rfl⟩ := Prod.mk.inj heq
      have := ih hfound
      simp only [List.length_cons]
      omega
    unfold groupEnd? at h
    split at h
    · split at h
      · obtain ⟨-, rfl⟩ := Prod.mk.inj (Option.some.inj h)
        simp
      · exact deeper h
    · split at h <;> exact deeper h

theorem argument_length {command : String} {input found after : List Token}
    (h : argument command input = .ok (found, after)) : after.length < input.length := by
  cases input with
  | nil => simp [argument] at h
  | cons t rest =>
    simp only [argument] at h
    split at h
    · cases h
    · split at h
      · split at h
        · rename_i hfound
          cases h
          have := groupEnd?_length hfound
          simp only [List.length_cons]
          omega
        · cases h
      · cases h
        simp

theorem delimiter_length {command fence : String} {input after : List Token}
    (h : delimiter command input = .ok (fence, after)) : after.length < input.length := by
  cases input with
  | nil => simp [delimiter] at h
  | cons t rest =>
    simp only [delimiter] at h
    split at h <;> cases h
    simp

theorem eq_ok_of_mapError {ε ε' α : Type} {f : ε → ε'} {x : Except ε α} {a : α}
    (h : x.mapError f = .ok a) : x = .ok a := by
  cases x with
  | error e => cases h
  | ok b => exact congrArg Except.ok (Except.ok.inj h)

theorem exists_ok_of_bind {ε α β : Type} {x : Except ε α} {f : α → Except ε β} {b : β}
    (h : (x >>= f) = .ok b) : ∃ a, x = .ok a ∧ f a = .ok b := by
  cases x with
  | error e => simp [bind, Except.bind] at h
  | ok a => exact ⟨a, rfl, h⟩

theorem pushItem_input {d : Dialect} {offset : Nat} {r r' : Reader} {item : Frame}
    (h : r.pushItem d offset item = .ok r') :
    r'.input = r.input ∧ r'.expansions = r.expansions := by
  obtain ⟨stack, -, h⟩ := exists_ok_of_bind h
  cases h
  exact ⟨rfl, rfl⟩

theorem pushNew_input {d : Dialect} {offset : Nat} {r r' : Reader} {kind : String}
    {properties : Fields Value} (h : r.pushNew d offset kind properties = .ok r') :
    r'.input = r.input ∧ r'.expansions = r.expansions := by
  obtain ⟨item, -, h⟩ := exists_ok_of_bind h
  exact pushItem_input h

theorem pushNode_input {d : Dialect} {r r' : Reader} {f : Formula}
    (h : r.pushNode d f = .ok r') : r'.input = r.input ∧ r'.expansions = r.expansions := by
  obtain ⟨item, -, h⟩ := exists_ok_of_bind h
  obtain ⟨stack, -, h⟩ := exists_ok_of_bind h
  cases h
  exact ⟨rfl, rfl⟩

theorem pushNodes_input {d : Dialect} {r r' : Reader} {fs : List Formula}
    (h : r.pushNodes d fs = .ok r') : r'.input = r.input ∧ r'.expansions = r.expansions := by
  induction fs generalizing r with
  | nil => cases h; exact ⟨rfl, rfl⟩
  | cons f rest ih =>
    obtain ⟨middle, hn, h⟩ := exists_ok_of_bind h
    have h1 := pushNode_input hn
    have h2 := ih h
    exact ⟨h2.1.trans h1.1, h2.2.trans h1.2⟩

theorem mergeBars_length (single : String) (input : List Token) :
    (mergeBars single input).2.length ≤ input.length := by
  cases input with
  | nil => simp [mergeBars]
  | cons t rest => simp only [mergeBars]; split <;> simp

theorem within_of_eq {r' r : Reader} (h : r'.input = r.input ∧ r'.expansions = r.expansions) :
    r'.Within r := .inr ⟨h.2, Nat.le_of_eq (congrArg List.length h.1)⟩

theorem within_of_le {r' r : Reader} {input : List Token} (hle : input.length ≤ r.input.length)
    (h : r'.input = input ∧ r'.expansions = r.expansions) : r'.Within r :=
  .inr ⟨h.2, by rw [h.1]; exact hle⟩

theorem separate_within {d : Dialect} {single : String} {count : Int} {top : Frame}
    {below : Stack} {r r' : Reader} (h : r.separate d single count top below = .ok r') :
    r'.Within r := by
  have hle := mergeBars_length single r.input
  simp only [separate] at h
  split at h
  · exact within_of_le hle (pushNodes_input h)
  · exact within_of_le hle (pushNode_input h)

theorem bar_within {d : Dialect} {command : String} {r r' : Reader}
    (h : r.bar d command = .ok r') : r'.Within r := by
  simp only [bar] at h
  split at h
  · cases h
  · split at h
    · split at h
      · cases h
      · split at h
        · cases h
        · exact within_of_eq (pushNode_input h)
        · exact separate_within h
    · exact within_of_eq (pushNode_input h)

theorem expand_within {command : Token} {text : Value} {arity : Nat} {r r' : Reader}
    (h : r.expand command text arity = .ok r') : r'.Within r := by
  obtain ⟨⟨found, input⟩, -, h⟩ := exists_ok_of_bind h
  simp only at h
  split at h
  · cases h
  · rename_i n hn
    obtain ⟨template, -, h⟩ := exists_ok_of_bind h
    obtain ⟨expansion, -, h⟩ := exists_ok_of_bind h
    cases h
    exact .inl (by simp only [hn]; omega)

/-- Carrying out a meaning uses up an expansion or leaves no more input. -/
theorem perform_within {d : Dialect} {t : Token} {action : Action} {r r' : Reader}
    (h : r.perform d t action = .ok r') : r'.Within r := by
  cases action with
  | left | right =>
    obtain ⟨⟨fence, input⟩, hd, h⟩ := exists_ok_of_bind h
    exact within_of_le (Nat.le_of_lt (delimiter_length (eq_ok_of_mapError hd))) (pushNew_input h)
  | begin | finish =>
    obtain ⟨⟨env, input⟩, ha, h⟩ := exists_ok_of_bind h
    exact within_of_le (Nat.le_of_lt (argument_length (eq_ok_of_mapError ha))) (pushNew_input h)
  | openGroup | closeGroup => exact within_of_eq (pushNew_input h)
  | illegalParameter | misused => cases h
  | template text arity =>
    simp only [perform] at h
    split at h
    · exact expand_within h
    · cases h
  | bar => exact bar_within h
  | braket opener closer stretchy limit =>
    simp only [perform] at h
    split at h
    · rename_i next input hi
      split at h
      · have hle : input.length ≤ r.input.length := by simp [hi]
        exact within_of_le hle (pushNew_input h)
      · cases h
    · cases h
  | _ => exact within_of_eq (pushNode_input h)

theorem step_within {d : Dialect} {t : Token} {r r' : Reader} (h : r.step d t = .ok r') :
    r'.Within r := by
  obtain ⟨action, -, h⟩ := exists_ok_of_bind h
  exact perform_within h

theorem lex_of_within {stack : Stack} {rest : List Token} {expansions : Nat} {r : Reader}
    (t : Token) (h : r.Within ⟨stack, rest, expansions⟩) :
    Prod.Lex (· < ·) (· < ·) (r.expansions, r.input.length) (expansions, (t :: rest).length) := by
  rcases h with h | ⟨he, hl⟩
  · exact .left _ _ h
  · rw [he]
    exact .right _ (Nat.lt_succ_of_le hl)

/-! ### Reading to the end -/

/-- The reader after all of its input is read.  An error without a place is placed at the
token that was being read. -/
def run (d : Dialect) : Reader → Except Failure Reader
  | ⟨stack, [], expansions⟩ => .ok ⟨stack, [], expansions⟩
  | ⟨stack, t :: rest, expansions⟩ =>
    match hstep : step d t ⟨stack, rest, expansions⟩ with
    | .error failure => .error (failure.locate t.start)
    | .ok r =>
      have := lex_of_within t (step_within hstep)
      run d r
termination_by r => (r.expansions, r.input.length)
decreasing_by exact this

/-- The reader at the end of a text of `length` characters: the item that ends the text is
pushed. -/
def close (d : Dialect) (length : Nat) (r : Reader) : Except Failure Reader :=
  match r.pushNew d length "stop" [] with
  | .error failure => .error (failure.locate length)
  | .ok r => .ok r

/-- The first node of what a reader is left with, if there is one. -/
def outcome (r : Reader) : Except Failure (Option Formula) :=
  match r.stack with
  | [] => .error (.fault .emptyStack)
  | top :: _ => .ok top.first

end Reader

/-- The formula that a text stands for, with at most `limit` expansions.  There is none only
in a dialect in which the end of the text need not close what is open. -/
def readTex (d : Dialect) (limit : Int) (text : String) : Except Failure (Option Formula) := do
  let input ← (tokenize text).mapError .tex
  let stack ← Stack.initial d.kinds
  let r ← Reader.run d { stack, input, expansions := limit.toNat }
  let r ← r.close d text.length
  r.outcome

/-- How many expansions a text may have unless another limit is set. -/
def defaultLimit : Int := 10000

end Formulary
