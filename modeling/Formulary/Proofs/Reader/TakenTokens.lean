import Formulary.Delimiters
import Formulary.Proofs.Reader.TokenPlaces
import Formulary.Proofs.Tokens.JoinedTexts

/-! # Tokens as they are taken

A group ends at the brace that closes it, whatever stands between and behind: where the tokens
inside are paired (`Token.ArePaired`), the argument that begins with the group is what the braces
enclose (`Reader.argument_group`), and groups in a row are as many arguments
(`Reader.arguments_groups`).

Of a text no more than its lexemes is taken: it is read as any tokens are that have these
(`readTex_answer`).  Where a run is over after so many steps, whether it reached the limit on
expansions can be computed (`spares_of_exhausts?`). -/

namespace Formulary

namespace Token

/-- How many braces the tokens open more than they close. -/
def openBraces (tokens : List Token) : Int :=
  tokens.countP (·.kind = .openBrace) - tokens.countP (·.kind = .closeBrace)

/-- No brace is closed that was not opened before, and none is left open. -/
def ArePaired (tokens : List Token) : Prop :=
  (∀ p ≤ tokens.length, 0 ≤ openBraces (tokens.take p)) ∧ openBraces tokens = 0

instance : DecidablePred ArePaired := fun _ => inferInstanceAs (Decidable (_ ∧ _))

/-- The tokens are paired if `depth` opening braces stand before them. -/
def ArePairedAfter (depth : Nat) (tokens : List Token) : Prop :=
  (∀ p ≤ tokens.length, 0 ≤ depth + openBraces (tokens.take p)) ∧ depth + openBraces tokens = 0

variable {t : Token} {tokens rest : List Token} {depth : Nat}

theorem arePairedAfter_of_arePaired (h : ArePaired tokens) : ArePairedAfter 0 tokens :=
  ⟨fun p hp => by simpa using h.1 p hp, by simpa using h.2⟩

theorem openBraces_cons (t : Token) (rest : List Token) :
    openBraces (t :: rest) = openBraces [t] + openBraces rest := by
  simp only [openBraces, List.countP_cons, List.countP_nil]
  omega

theorem openBraces_open (h : t.kind = .openBrace) : openBraces [t] = 1 := by
  simp [openBraces, h]

theorem openBraces_close (h : t.kind = .closeBrace) : openBraces [t] = -1 := by
  simp [openBraces, h]

theorem openBraces_other (hopen : t.kind ≠ .openBrace) (hclose : t.kind ≠ .closeBrace) :
    openBraces [t] = 0 := by
  simp [openBraces, hopen, hclose]

theorem ArePairedAfter.nonneg_head (h : ArePairedAfter depth (t :: rest)) : 0 ≤ depth + openBraces [t] :=
  h.1 1 (Nat.succ_le_succ (Nat.zero_le _))

theorem ArePairedAfter.tail (h : ArePairedAfter depth (t :: rest)) {depth' : Nat}
    (hdepth : (depth' : Int) = depth + openBraces [t]) : ArePairedAfter depth' rest := by
  obtain ⟨hnonneg, hclosed⟩ := h
  rw [openBraces_cons] at hclosed
  refine ⟨fun p hp => ?_, by omega⟩
  have hfirst := hnonneg (p + 1) (Nat.succ_le_succ hp)
  rw [List.take_succ_cons, openBraces_cons] at hfirst
  omega

theorem arePaired_of_ne (h : ∀ t ∈ tokens, t.kind ≠ .openBrace ∧ t.kind ≠ .closeBrace) :
    ArePaired tokens := by
  have hzero : ∀ {part : List Token}, (∀ t ∈ part, t ∈ tokens) → openBraces part = 0 := by
    intro part hpart
    have hopen : part.countP (·.kind = .openBrace) = 0 :=
      List.countP_eq_zero.2 fun t ht => by simpa using (h t (hpart t ht)).1
    have hclose : part.countP (·.kind = .closeBrace) = 0 :=
      List.countP_eq_zero.2 fun t ht => by simpa using (h t (hpart t ht)).2
    rw [openBraces, hopen, hclose]
    rfl
  refine ⟨fun p _ => ?_, hzero fun t ht => ht⟩
  exact Int.le_of_eq (hzero fun t ht => List.mem_of_mem_take ht).symm

/-- Tokens in braces. -/
def group (opening closing : Token) (inside : List Token) : List Token :=
  opening :: (inside ++ [closing])

/-- Tokens in braces that stand nowhere in particular. -/
def braced (inside : List Token) : List Token :=
  group ⟨.openBrace, "\x7b", 0⟩ ⟨.closeBrace, "\x7d", 0⟩ inside

end Token

namespace Reader

open Token

variable {t opening closing : Token} {inside rest : List Token} {depth : Nat}

/-- A group ends at the first brace that closes what is open. -/
theorem groupEnd?_append (h : ArePairedAfter depth inside) (hclosing : closing.kind = .closeBrace)
    (rest : List Token) :
    groupEnd? depth (inside ++ closing :: rest) = some (inside, rest) := by
  induction inside generalizing depth with
  | nil =>
    obtain rfl : depth = 0 := by
      have hzero : openBraces [] = 0 := rfl
      have hclosed := h.2
      omega
    rw [List.nil_append, groupEnd?, if_pos hclosing]
  | cons t inside ih =>
    have hhead := h.nonneg_head
    rw [List.cons_append, groupEnd?.eq_def]
    dsimp only
    split
    · rename_i hclose
      rw [openBraces_close hclose] at hhead
      obtain ⟨d, rfl⟩ : ∃ d, depth = d + 1 := Nat.exists_eq_succ_of_ne_zero (by omega)
      dsimp only
      rw [ih (h.tail (by rw [openBraces_close hclose]; omega))]
      rfl
    · rename_i hclose
      split
      · rename_i hopen
        rw [ih (h.tail (by rw [openBraces_open hopen]; omega))]
        rfl
      · rename_i hopen
        rw [ih (h.tail (by rw [openBraces_other hopen hclose]; omega))]
        rfl

variable (hopening : opening.kind = .openBrace) (hclosing : closing.kind = .closeBrace)

include hopening hclosing

/-- The argument that a group begins is what its braces enclose. -/
theorem argument_group (h : ArePaired inside) (command : String) (rest : List Token) :
    argument command (group opening closing inside ++ rest) = .ok (inside, rest) := by
  have hnot : opening.kind ≠ .closeBrace := by
    rw [hopening]
    decide
  rw [group, List.cons_append, List.append_assoc, List.singleton_append, argument, if_neg hnot,
    if_pos hopening, groupEnd?_append (arePairedAfter_of_arePaired h) hclosing]

/-- Groups in a row are arguments. -/
theorem arguments_groups {given : List (List Token)} (h : ∀ inside ∈ given, ArePaired inside)
    (command : String) (rest : List Token) :
    arguments command given.length (given.flatMap (group opening closing) ++ rest) =
      .ok (given, rest) := by
  induction given with
  | nil => rfl
  | cons inside others ih =>
    have hfirst := argument_group hopening hclosing (h inside (List.mem_cons_self ..)) command
      (others.flatMap (group opening closing) ++ rest)
    have hothers := ih fun inside hinside => h inside (List.mem_cons_of_mem _ hinside)
    rw [List.length_cons, List.flatMap_cons, List.append_assoc, arguments, hfirst]
    dsimp only [bind, Except.bind]
    rw [hothers]
    rfl

omit hopening hclosing

theorem argument_braced (h : ArePaired inside) (command : String) (rest : List Token) :
    argument command (braced inside ++ rest) = .ok (inside, rest) :=
  argument_group rfl rfl h command rest

theorem arguments_braced {given : List (List Token)} (h : ∀ inside ∈ given, ArePaired inside)
    (command : String) (rest : List Token) :
    arguments command given.length (given.flatMap braced ++ rest) = .ok (given, rest) :=
  arguments_groups rfl rfl h command rest

end Reader

/-! ### Texts and their lexemes -/

namespace Token

/-- The text has the lexemes of the tokens, and those of what follows it come behind them. -/
def Lexes (part : List Char) (tokens : List Token) : Prop :=
  ∀ s, lexemes (part ++ s) = (lexemes s).map (tokens.map lexeme ++ ·)

namespace Lexes

variable {part part' : List Char} {tokens tokens' : List Token}

theorem nil : Lexes [] [] := by
  intro s
  rw [List.nil_append]
  cases lexemes s <;> rfl

theorem append (h : Lexes part tokens) (h' : Lexes part' tokens') :
    Lexes (part ++ part') (tokens ++ tokens') := by
  intro s
  rw [List.append_assoc, h, h']
  cases lexemes s with
  | error cause => rfl
  | ok found => simp [Except.map]

theorem lexemes_eq (h : Lexes part tokens) : lexemes part = .ok (tokens.map lexeme) := by
  have hpart := h []
  rw [lexemes_nil, List.append_nil] at hpart
  rw [hpart, Except.map, List.append_nil]

theorem letter {c : Char} (hc : c.isAlpha = true) : Lexes [c] [⟨.letter, String.singleton c, 0⟩] :=
  fun s => lexemes_letter hc s

theorem braced (h : lexemes part = .ok (tokens.map lexeme)) :
    Lexes (Delimiters.braced part) (Token.braced tokens) := by
  intro s
  rw [Delimiters.braced, List.cons_append, List.append_assoc, List.singleton_append,
    lexemes_braced h]
  cases lexemes s with
  | error cause => rfl
  | ok others => simp [Except.map, Token.braced, group, lexeme]

theorem command {c : Char} {letters : List Char} (first : c.isAlpha = true)
    (others : ∀ d ∈ letters, d.isAlpha = true) (h : Lexes ('\x7b' :: part) tokens) :
    Lexes ('\\' :: c :: (letters ++ '\x7b' :: part))
      (⟨.controlWord, String.ofList ('\\' :: c :: letters), 0⟩ :: tokens) := by
  intro s
  have hpart := h s
  rw [List.cons_append] at hpart
  rw [List.cons_append, List.cons_append, List.append_assoc, List.cons_append,
    lexemes_command first others, hpart]
  cases lexemes s <;> rfl

end Lexes

end Token

namespace Failure.Alike

variable {failure failure' failure'' : Failure}

theorem symm (h : failure.Alike failure') : failure'.Alike failure := by
  cases h with
  | tex cause offset offset' => exact .tex cause offset' offset
  | fault fault => exact .fault fault

theorem trans (h : failure.Alike failure') (h' : failure'.Alike failure'') :
    failure.Alike failure'' := by
  cases h with
  | tex cause offset =>
    cases h' with
    | tex _ _ offset'' => exact .tex cause offset offset''
  | fault fault => exact h'

end Failure.Alike

namespace Agrees

variable {α : Type} {x y z : Except Failure α}

theorem symm (h : Agrees Failure.Alike Eq x y) : Agrees Failure.Alike Eq y x := by
  cases h with
  | ok heq => exact .ok heq.symm
  | error hfailure => exact .error hfailure.symm

theorem trans (h : Agrees Failure.Alike Eq x y) (h' : Agrees Failure.Alike Eq y z) :
    Agrees Failure.Alike Eq x z := by
  cases h with
  | ok heq =>
    subst heq
    exact h'
  | error hfailure =>
    cases h' with
    | error hfailure' => exact .error (hfailure.trans hfailure')

theorem eq_ok {a : α} (h : Agrees Failure.Alike Eq x (.ok a)) : x = .ok a := by
  cases h with
  | ok heq => rw [heq]

/-- Of results that agree both are the same formula or errors with one cause, if one is a formula or
an error of TeX. -/
theorem same_formula_or_cause {x y : Except Failure (Option Formula)}
    (h : Agrees Failure.Alike Eq x y) (hx : Yields (fun f => f.isSome) x) :
    (∃ f, x = .ok (some f) ∧ y = .ok (some f)) ∨
      ∃ cause offset offset', x = .error (.tex ⟨cause, offset⟩) ∧ y = .error (.tex ⟨cause, offset'⟩) := by
  cases h with
  | @ok found found' heq =>
    subst heq
    obtain ⟨f, rfl⟩ := Option.isSome_iff_exists.1 hx
    exact .inl ⟨f, rfl, rfl⟩
  | error hfailure =>
    cases hfailure with
    | tex cause offset offset' => exact .inr ⟨cause, offset, offset', rfl, rfl⟩
    | fault => exact hx.elim

theorem spares (h : Agrees Failure.Alike Eq x y) (hx : Spares x) : Spares y := by
  rintro offset rfl
  cases h with
  | error hfailure =>
    cases hfailure with
    | tex cause offset' => exact hx offset' rfl

end Agrees

theorem Reader.run_of_step {d : Dialect} {stack : Stack} {t : Token} {rest : List Token} {n : Nat}
    {next : Reader} (h : step d t ⟨stack, rest, n⟩ = .ok next) :
    run d ⟨stack, t :: rest, n⟩ = next.run d := by
  rw [run_cons, h]

/-- What becomes of alike readers agrees, wherever their texts end. -/
theorem Reader.answer_agrees {d : Dialect} {r r' : Reader} (h : r.Alike r') (text text' : String) :
    Agrees Failure.Alike Eq (r.answer d text) (r'.answer d text') :=
  (run_agrees h).bind fun _ _ hlast =>
    (close_agrees hlast ..).bind fun _ _ hclosed => outcome_agrees hclosed

/-- A text is read as any tokens are that have its lexemes. -/
theorem readTex_answer {d : Dialect} {stack : Stack} (hstack : Stack.initial d.kinds = .ok stack)
    {text : String} {tokens : List Token}
    (h : Token.lexemes text.toList = .ok (tokens.map Token.lexeme)) (limit : Int) :
    Agrees Failure.Alike Eq (readTex d limit text)
      (Reader.answer d text ⟨stack, tokens, limit.toNat⟩) := by
  obtain ⟨found, hfound, heq⟩ := Token.exists_tokenize h
  have hstart : Reader.Alike ⟨stack, found, limit.toNat⟩ ⟨stack, tokens, limit.toNat⟩ :=
    ⟨List.forall₂_same.2 fun _ _ => .refl _, inputAlike_of_map_eq heq, rfl⟩
  have hread : readTex d limit text = Reader.answer d text ⟨stack, found, limit.toNat⟩ := by
    rw [readTex, hfound, hstack]
    rfl
  rw [hread]
  exact Reader.answer_agrees hstart text text

theorem readTex_of_lexemes_error {d : Dialect} {text : String} {cause : TexCause}
    (h : Token.lexemes text.toList = .error cause) (limit : Int) :
    ∃ offset, readTex d limit text = .error (.tex ⟨cause, offset⟩) := by
  obtain ⟨offset, htokens⟩ := Token.exists_tokenize_error h
  refine ⟨offset, ?_⟩
  rw [readTex, htokens]
  rfl

/-! ### Texts that stay below the limit -/

/-- Whether the result is that there were too many expansions. -/
def Reader.isExhausted : Except Failure Reader → Bool
  | .error (.tex e) => e.cause = .tooManyExpansions
  | _ => false

/-- Whether reading a text reaches the limit on expansions, if so many steps are enough to tell. -/
def exhausts? (d : Dialect) (fuel : Nat) (limit : Int) (text : String) : Option Bool :=
  match tokenize text, Stack.initial d.kinds with
  | .ok input, .ok stack =>
    (Reader.runFor d fuel ⟨stack, input, limit.toNat⟩).map Reader.isExhausted
  | _, _ => some false

theorem spares_of_exhausts? {d : Dialect} {fuel : Nat} {limit : Int} {text : String}
    (h : exhausts? d fuel limit text = some false) : Spares (readTex d limit text) := by
  have htext := tokenize_spares text
  have hinitial : Spares (Stack.initial d.kinds) := (d.kinds.create_spares _ _).bind fun _ => .ok _
  rw [exhausts?] at h
  rw [readTex]
  cases htokens : tokenize text with
  | error e =>
    rw [htokens] at htext
    exact htext.error
  | ok input =>
    cases hstack : Stack.initial d.kinds with
    | error failure =>
      rw [hstack] at hinitial
      exact hinitial.error
    | ok stack =>
      rw [htokens, hstack] at h
      obtain ⟨x, hx, hspares⟩ := Option.map_eq_some_iff.1 h
      rintro offset hanswer
      obtain ⟨offset', hrun⟩ := Reader.answer_exhausted.1 ⟨offset, hanswer⟩
      rw [← Reader.run_of_runFor hx, hrun] at hspares
      simp [Reader.isExhausted] at hspares

end Formulary
