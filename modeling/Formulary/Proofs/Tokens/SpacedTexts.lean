import Formulary.Proofs.Tokens.JoinedTexts

/-! # Tokens with spaces between them

A space ends every token and belongs to none.  So the tokens of a text that has a space and another
text behind it are those of the one and then those of the other (`Token.tokensFrom_spaced`), and
what is wrong with the other text is wrong where it stands.

What a token is spelled with is read as that token where nothing follows
(`Token.lexemes_of_spells`).  Tokens that run together if they are written one after the other, such
as a `#` and a digit, are therefore read again as they are when there are spaces between them
(`Token.lexemes_intercalate`). -/

namespace Formulary

theorem TokenKind.endsBefore_nil (kind : TokenKind) (spelled : List Char) :
    kind.EndsBefore spelled [] := by
  cases kind <;> simp [EndsBefore, begins, beginsFraction]

namespace Token

variable {start : Nat} {s a : List Char} {tokens : List Token}

/-! ### A space between two texts -/

/-- The tokens of a text behind a space follow those of the text before it. -/
theorem tokensFrom_spaced (h : tokensFrom start a = .ok tokens) (b : List Char) :
    tokensFrom start (a ++ ' ' :: b) =
      (tokensFrom (start + (a.length + 1)) b).map (tokens ++ ·) := by
  rw [tokensFrom_append h (interrupts_space b), tokensFrom, if_pos (by rfl),
    Nat.add_assoc]

/-- What is wrong with a text is wrong at one of its characters. -/
theorem exists_offset_of_tokensFrom {e : TexError} (h : tokensFrom 0 s = .error e) :
    ∃ p < s.length, e.offset = some (p : Int) := by
  have hrefuses := tokensFrom_refuses List.drop_zero (not_odd_backslashesBefore_zero s)
  rw [h] at hrefuses
  obtain ⟨p, d, hd, rfl, -⟩ := hrefuses
  exact ⟨p, (List.getElem?_eq_some_iff.1 hd).1, rfl⟩

/-! ### Spaces between tokens -/

/-- What a token is spelled with is that token. -/
theorem lexemes_of_spells {kind : TokenKind} (h : kind.Spells s) :
    lexemes s = .ok [(kind, String.ofList s)] := by
  obtain ⟨c, tail, rfl⟩ := List.exists_cons_of_ne_nil h.ne_nil
  have hseparator : isSeparator c = false := by
    refine Bool.eq_false_iff.2 fun hc => ?_
    have hblank := isBlank_of_isSeparator hc
    rw [h.isBlank_head] at hblank
    cases hblank
  have hlexeme := lexeme?_of_spells h (kind.endsBefore_nil (c :: tail))
  rw [List.append_nil] at hlexeme
  rw [lexemes_cons hseparator hlexeme, List.drop_length, List.take_length, lexemes_nil]
  rfl

theorem lexemes_text {t : Token} (h : t.kind.Spells t.text.toList) :
    lexemes t.text.toList = .ok [t.lexeme] := by
  rw [lexemes_of_spells h, String.ofList_toList]
  rfl

/-- Tokens with spaces between them are read as they are. -/
theorem lexemes_intercalate (h : ∀ t ∈ tokens, t.kind.Spells t.text.toList) :
    lexemes (" ".intercalate (tokens.map Token.text)).toList = .ok (tokens.map lexeme) := by
  induction tokens with
  | nil => exact lexemes_nil
  | cons t tokens ih =>
    obtain ⟨ht, hrest⟩ := List.forall_mem_cons.1 h
    cases tokens with
    | nil => exact lexemes_text ht
    | cons u tokens =>
      rw [List.map_cons, List.map_cons, String.intercalate_cons_cons, lexemes_spaced (lexemes_text ht),
        ← List.map_cons (f := Token.text), ih hrest]
      rfl

end Token

/-- Tokens that are written with spaces between them are found again, as they were but for their
places.  Altogether the tokens of a text that has a space and another text behind it are those of
the first and then those of the second, further along by the length of the first and the space; and
if the second has none, neither have both, for the same reason at the place that is as much further
along. -/
theorem tokenize_spaced :
    (∀ text tokens, tokenize text = .ok tokens →
      ∃ again, tokenize (" ".intercalate (tokens.map Token.text)) = .ok again ∧
        again.map Token.lexeme = tokens.map Token.lexeme) ∧
    ∀ a b tokens, tokenize a = .ok tokens →
      (∀ others, tokenize b = .ok others →
        tokenize (a ++ " " ++ b) = .ok (tokens ++ others.map (Token.moved (a.length + 1)))) ∧
      ∀ e, tokenize b = .error e → ∃ p < b.length, e.offset = some (p : Int) ∧
        tokenize (a ++ " " ++ b) = .error ⟨e.cause, some ((p + (a.length + 1) : Nat) : Int)⟩ := by
  refine ⟨fun text tokens h => ?_, fun a b tokens h => ?_⟩
  · have hdecomposes := (Token.tokensFrom_eq_ok_iff List.drop_zero).1 h
    exact Token.exists_tokenize (Token.lexemes_intercalate hdecomposes.spelled)
  · have hspaced : tokenize (a ++ " " ++ b) = (Token.tokensFrom (0 + (a.length + 1)) b.toList).map
        (tokens ++ ·) := by
      rw [tokenize, String.toList_append, String.toList_append, List.append_assoc, ← String.length_toList]
      exact Token.tokensFrom_spaced h b.toList
    rw [Token.tokensFrom_moved, ← tokenize] at hspaced
    refine ⟨fun others hothers => ?_, fun e he => ?_⟩
    · rw [hspaced, hothers]
      rfl
    · obtain ⟨p, hlt, hoffset⟩ := Token.exists_offset_of_tokensFrom he
      rw [String.length_toList] at hlt
      refine ⟨p, hlt, hoffset, ?_⟩
      rw [hspaced, he]
      simp [Except.map, Except.mapError, TexError.moved, hoffset]

/-- A parameter and numbers that touch, and a `#` that makes no parameter of the digit behind the
space. -/
theorem tokenize_spaced_numbers :
    let tokens : List Token := [⟨.parameter, "#1", 0⟩, ⟨.number, "2.5", 2⟩, ⟨.number, ".5", 5⟩,
      ⟨.controlSymbol, "\\ ", 7⟩, ⟨.letter, "x", 9⟩]
    let refused (p : Int) : TexError := ⟨.unexpectedCharacter '\\', some p⟩
    (tokenize "#12.5.5\\ x" = .ok tokens ∧
      ∃ again, tokenize "#1 2.5 .5 \\  x" = .ok again ∧
        again.map Token.lexeme = tokens.map Token.lexeme) ∧
    tokenize "#" = .ok [⟨.other, "#", 0⟩] ∧
    (tokenize "1" = .ok [⟨.number, "1", 0⟩] ∧
      tokenize "# 1" = .ok [⟨.other, "#", 0⟩, ⟨.number, "1", 2⟩]) ∧
    tokenize "1\\" = .error (refused 1) ∧ tokenize "# 1\\" = .error (refused 3) := by
  intro tokens refused
  have htouching : tokenize "#12.5.5\\ x" = .ok tokens := by decide +kernel
  have hhash : tokenize "#" = .ok [⟨.other, "#", 0⟩] := by decide +kernel
  have hdigit : tokenize "1" = .ok [⟨.number, "1", 0⟩] := by decide +kernel
  have hbackslash : tokenize "1\\" = .error (refused 1) := by decide +kernel
  obtain ⟨hagain, hspaced⟩ := tokenize_spaced
  obtain ⟨p, -, hp, herror⟩ := (hspaced "#" "1\\" _ hhash).2 _ hbackslash
  obtain rfl : p = 1 := by
    have hone := Option.some.inj hp
    omega
  exact ⟨⟨htouching, hagain _ _ htouching⟩, hhash,
    ⟨hdigit, (hspaced "#" "1" _ hhash).1 _ hdigit⟩, hbackslash, herror⟩

end Formulary
