import Formulary.Proofs.Tokens.Decomposition

/-! # Tokens of texts that are joined

What a token is, and where it ends, is decided by the characters behind it only as far as they could
belong to it.  A text that begins with none of these *interrupts* every token (`Interrupts`): its
tokens follow those of the text in front of it (`Token.tokensFrom_append`).

Where a text stands makes no difference but for the places of its tokens (`Token.tokensFrom_moved`),
so it has lexemes of its own, kinds and spellings without places (`Token.lexemes`).  Those of joined
texts are joined (`Token.lexemes_append`), and braces keep what is between them apart from what is
around them (`Token.lexemes_braced`). -/

namespace Formulary

/-- No token goes on into the text. -/
def Interrupts (after : List Char) : Prop :=
  ∀ (kind : TokenKind) (spelled : List Char), kind.EndsBefore spelled after

/-- A character that is no letter, no digit and no point belongs to no token before it. -/
theorem interrupts_cons {c : Char} (halpha : c.isAlpha = false) (hdigit : c.isDigit = false)
    (hpoint : c ≠ '.') (rest : List Char) : Interrupts (c :: rest) := by
  have hparameter : isParameterDigit c = false :=
    Bool.eq_false_iff.2 fun h => by
      rw [isDigit_of_isParameterDigit h] at hdigit
      cases hdigit
  have hfraction : beginsFraction (c :: rest) = false := by
    rw [beginsFraction.eq_def]
    split
    · rename_i heq
      exact absurd (List.cons.inj heq).1 hpoint
    · rfl
  intro kind spelled
  cases kind <;> simp [TokenKind.EndsBefore, begins, halpha, hdigit, hparameter, hfraction]

theorem interrupts_space (rest : List Char) : Interrupts (' ' :: rest) :=
  interrupts_cons rfl rfl (by decide) rest

theorem interrupts_openBrace (rest : List Char) : Interrupts ('\x7b' :: rest) :=
  interrupts_cons rfl rfl (by decide) rest

theorem interrupts_closeBrace (rest : List Char) : Interrupts ('\x7d' :: rest) :=
  interrupts_cons rfl rfl (by decide) rest

/-- A token that ends before a text ends before it also where a text behind that interrupts. -/
theorem TokenKind.EndsBefore.append {kind : TokenKind} {spelled after b : List Char}
    (h : kind.EndsBefore spelled after) (hb : Interrupts b) : kind.EndsBefore spelled (after ++ b) := by
  cases after with
  | nil => exact hb kind spelled
  | cons c rest =>
    have hfraction (hnone : beginsFraction (c :: rest) = false) :
        beginsFraction (c :: rest ++ b) = false := by
      by_cases hc : c = '.'
      · subst hc
        cases rest with
        | nil => exact (hb .number []).1
        | cons d rest => exact hnone
      · rw [beginsFraction.eq_def]
        split
        · rename_i heq
          exact absurd (List.cons.inj heq).1 hc
        · rfl
    cases kind with
    | number => exact ⟨h.1, fun hpoint => hfraction (h.2 hpoint)⟩
    | _ => exact h

namespace Token

variable {c : Char} {rest s a b : List Char} {kind : TokenKind} {more start : Nat}

/-! ### Joined texts -/

theorem lexeme?_append (h : lexeme? c rest = some (kind, more)) (hb : Interrupts b) :
    lexeme? c (rest ++ b) = some (kind, more) := by
  obtain ⟨tail, after, rfl, rfl, hspells, hends⟩ := lexeme?_eq_some_iff.1 h
  rw [List.append_assoc]
  exact lexeme?_of_spells hspells (hends.append hb)

theorem le_of_lexeme? (h : lexeme? c rest = some (kind, more)) : more ≤ rest.length := by
  obtain ⟨tail, after, rfl, rfl, -, -⟩ := lexeme?_eq_some_iff.1 h
  rw [List.length_append]
  exact Nat.le_add_right ..

/-- The tokens of a text that interrupts follow those of the text before it. -/
theorem tokensFrom_append {tokens : List Token} (h : tokensFrom start a = .ok tokens)
    (hb : Interrupts b) :
    tokensFrom start (a ++ b) = (tokensFrom (start + a.length) b).map (tokens ++ ·) := by
  fun_induction tokensFrom start a generalizing tokens with
  | case1 start =>
    cases h
    rw [List.nil_append, List.length_nil, Nat.add_zero]
    cases tokensFrom start b <;> rfl
  | case2 start c rest hseparator ih =>
    rw [List.cons_append, tokensFrom, if_pos hseparator, ih h, List.length_cons, Nat.add_assoc,
      Nat.add_comm 1]
  | case3 => cases h
  | case4 => cases h
  | case5 start c rest hseparator kind more hlexeme others hothers ih =>
    cases h
    have hle := le_of_lexeme? hlexeme
    have hlength : start + 1 + more + (rest.drop more).length = start + (c :: rest).length := by
      rw [List.length_drop, List.length_cons]
      omega
    have hrest := ih hothers
    rw [hlength] at hrest
    rw [List.cons_append, tokensFrom, if_neg hseparator, lexeme?_append hlexeme hb]
    dsimp only
    rw [List.drop_append_of_le_length hle, List.take_append_of_le_length hle, hrest]
    cases tokensFrom (start + (c :: rest).length) b <;> rfl

/-! ### Places -/

/-- The token, further along by a number of characters. -/
def moved (k : Nat) (t : Token) : Token := { t with start := t.start + k }

end Token

/-- The error, further along by a number of characters. -/
def TexError.moved (k : Nat) (e : TexError) : TexError :=
  { e with offset := e.offset.map (· + (k : Int)) }

namespace Token

variable {c : Char} {rest s a b : List Char} {kind : TokenKind} {more start : Nat}

/-- A text further along has its tokens, or what is wrong with it, further along. -/
theorem tokensFrom_moved (start k : Nat) (s : List Char) :
    tokensFrom (start + k) s =
      ((tokensFrom start s).map (List.map (moved k))).mapError (TexError.moved k) := by
  fun_induction tokensFrom start s with
  | case1 => rw [tokensFrom]; rfl
  | case2 start c rest hseparator ih =>
    rw [tokensFrom, if_pos hseparator, Nat.add_right_comm, ih]
  | case3 start c rest hseparator hlexeme =>
    rw [tokensFrom, if_neg hseparator, hlexeme]
    simp [Except.map, Except.mapError, TexError.moved]
  | case4 start c rest hseparator kind more hlexeme e herror ih =>
    rw [tokensFrom, if_neg hseparator, hlexeme]
    dsimp only
    rw [Nat.add_right_comm start, Nat.add_right_comm (start + 1), ih, herror]
    rfl
  | case5 start c rest hseparator kind more hlexeme others hothers ih =>
    rw [tokensFrom, if_neg hseparator, hlexeme]
    dsimp only
    rw [Nat.add_right_comm start, Nat.add_right_comm (start + 1), ih, hothers]
    rfl

/-! ### Lexemes -/

/-- A token without its place. -/
def lexeme (t : Token) : TokenKind × String := (t.kind, t.text)

/-- The tokens of a text without their places, or what is wrong with it. -/
def lexemes (s : List Char) : Except TexCause (List (TokenKind × String)) :=
  ((tokensFrom 0 s).map (List.map lexeme)).mapError TexError.cause

/-- The lexemes of a text are those of its tokens, wherever it stands. -/
theorem lexemes_eq (start : Nat) (s : List Char) :
    lexemes s = ((tokensFrom start s).map (List.map lexeme)).mapError TexError.cause := by
  have hmoved := tokensFrom_moved 0 start s
  rw [Nat.zero_add] at hmoved
  rw [lexemes, hmoved]
  cases tokensFrom 0 s with
  | error e => rfl
  | ok tokens =>
    refine congrArg Except.ok ?_
    rw [List.map_map]
    rfl

theorem lexemes_nil : lexemes [] = .ok [] := by
  rw [lexemes, tokensFrom]
  rfl

theorem lexemes_cons (hc : isSeparator c = false) (h : lexeme? c rest = some (kind, more)) :
    lexemes (c :: rest) = (lexemes (rest.drop more)).map
      ((kind, String.ofList (c :: rest.take more)) :: ·) := by
  have hnot : ¬isSeparator c = true := Bool.eq_false_iff.1 hc
  rw [lexemes, tokensFrom, if_neg hnot, h, lexemes_eq (0 + 1 + more) (rest.drop more)]
  dsimp only
  cases tokensFrom (0 + 1 + more) (rest.drop more) <;> rfl

/-- The lexemes of a text that interrupts follow those of the text before it. -/
theorem lexemes_append {found : List (TokenKind × String)} (h : lexemes a = .ok found)
    (hb : Interrupts b) : lexemes (a ++ b) = (lexemes b).map (found ++ ·) := by
  rw [lexemes] at h
  cases ha : tokensFrom 0 a with
  | error e =>
    rw [ha] at h
    cases h
  | ok tokens =>
    rw [ha] at h
    cases h
    rw [lexemes, tokensFrom_append ha hb, lexemes_eq (0 + a.length) b]
    cases tokensFrom (0 + a.length) b with
    | error e => rfl
    | ok others => exact congrArg Except.ok List.map_append

theorem lexemes_separator (hc : isSeparator c = true) (rest : List Char) :
    lexemes (c :: rest) = lexemes rest := by
  rw [lexemes, tokensFrom, if_pos hc, lexemes_eq (0 + 1) rest]

theorem lexemes_spaced {s : String} {found : List (TokenKind × String)}
    (h : lexemes s.toList = .ok found) (rest : String) :
    lexemes (s ++ " " ++ rest).toList = (lexemes rest.toList).map (found ++ ·) := by
  have hspaced : (s ++ " " ++ rest).toList = s.toList ++ ' ' :: rest.toList := by simp
  rw [hspaced, lexemes_append h (interrupts_space rest.toList), lexemes_separator rfl]

theorem lexeme?_alone (hspells : kind.Spells [c]) (hends : kind.EndsBefore [c] rest) :
    lexeme? c rest = some (kind, 0) :=
  lexeme?_of_spells hspells hends

theorem lexemes_letter (hc : c.isAlpha = true) (rest : List Char) :
    lexemes (c :: rest) = (lexemes rest).map ((.letter, String.singleton c) :: ·) := by
  have hseparator : isSeparator c = false := by
    refine Bool.eq_false_iff.2 fun h => ?_
    have hblank := (isInert_of_isAlpha hc).1
    rw [isBlank_of_isSeparator h] at hblank
    cases hblank
  exact lexemes_cons hseparator (lexeme?_alone (.letter hc) trivial)

theorem lexemes_openBrace (rest : List Char) :
    lexemes ('\x7b' :: rest) = (lexemes rest).map ((.openBrace, "\x7b") :: ·) :=
  lexemes_cons rfl (lexeme?_alone .openBrace trivial)

theorem lexemes_closeBrace (rest : List Char) :
    lexemes ('\x7d' :: rest) = (lexemes rest).map ((.closeBrace, "\x7d") :: ·) :=
  lexemes_cons rfl (lexeme?_alone .closeBrace trivial)

theorem lexemes_command {letters : List Char} (first : c.isAlpha = true)
    (others : ∀ d ∈ letters, d.isAlpha = true) (rest : List Char) :
    lexemes ('\\' :: c :: (letters ++ '\x7b' :: rest)) = (lexemes ('\x7b' :: rest)).map
      ((.controlWord, String.ofList ('\\' :: c :: letters)) :: ·) := by
  have hends : TokenKind.controlWord.EndsBefore ('\\' :: c :: letters) ('\x7b' :: rest) := rfl
  have hlexeme := lexeme?_of_spells (.controlWord first others) hends
  rw [List.cons_append] at hlexeme
  have hlexemes := lexemes_cons (c := '\\') rfl hlexeme
  rw [List.length_cons, List.drop_succ_cons, List.take_succ_cons, List.drop_left,
    List.take_left] at hlexemes
  exact hlexemes

/-- What stands in braces has the lexemes that it has alone. -/
theorem lexemes_braced {found : List (TokenKind × String)} (h : lexemes a = .ok found)
    (rest : List Char) :
    lexemes ('\x7b' :: (a ++ '\x7d' :: rest)) = (lexemes rest).map fun others =>
      (.openBrace, "\x7b") :: (found ++ (.closeBrace, "\x7d") :: others) := by
  rw [lexemes_openBrace, lexemes_append h (interrupts_closeBrace rest), lexemes_closeBrace]
  cases lexemes rest <;> rfl

theorem exists_tokenize {text : String} {found : List (TokenKind × String)}
    (h : lexemes text.toList = .ok found) :
    ∃ tokens, tokenize text = .ok tokens ∧ tokens.map lexeme = found := by
  rw [tokenize]
  rw [lexemes] at h
  cases htokens : tokensFrom 0 text.toList with
  | error e =>
    rw [htokens] at h
    cases h
  | ok tokens =>
    rw [htokens] at h
    exact ⟨tokens, rfl, Except.ok.inj h⟩

theorem exists_tokenize_error {text : String} {cause : TexCause}
    (h : lexemes text.toList = .error cause) :
    ∃ offset, tokenize text = .error ⟨cause, offset⟩ := by
  rw [tokenize]
  rw [lexemes] at h
  cases htokens : tokensFrom 0 text.toList with
  | error e =>
    rw [htokens] at h
    exact ⟨e.offset, by rw [← Except.error.inj h]⟩
  | ok tokens =>
    rw [htokens] at h
    cases h

theorem lexemes_of_tokenize {text : String} {tokens : List Token} (h : tokenize text = .ok tokens) :
    lexemes text.toList = .ok (tokens.map lexeme) := by
  rw [tokenize] at h
  rw [lexemes, h]
  rfl

end Token

end Formulary
