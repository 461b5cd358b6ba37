import Formulary.Proofs.Delimiters.Search
import Formulary.Proofs.Tokens.Lexemes

/-! # Braces in a text and among its tokens

The search for a closing delimiter and the reader of tokens count the same braces.  What they
count is `bracesAfter?`: a backslash hides the character after it, and a closing brace where none
is open is ignored.

Mathematics between the usual delimiters leaves no brace open and does not end in a lone backslash
(`Delimiters.find_braces`).  The tokens of a text leave as many braces open as the text
(`Token.tokensFrom_braces`), and a backslash is the only character that is not read for what
follows it (`Token.tokensFrom_error`). -/

namespace Formulary

/-- The number of braces that are open after a text if `depth` are open before it.  There is none
if the text ends in a backslash that hides nothing. -/
def bracesAfter? (depth : Nat) : List Char → Option Nat
  | [] => some depth
  | c :: rest =>
    if c = '\\' then
      match rest with
      | [] => none
      | _ :: rest => bracesAfter? depth rest
    else bracesAfter? (Delimiters.depthAfter depth [c]) rest

/-- A character that neither is a brace nor hides one. -/
def IsPlain (c : Char) : Prop := c ≠ '\\' ∧ c ≠ '\x7b' ∧ c ≠ '\x7d'

instance : DecidablePred IsPlain := fun _ => inferInstanceAs (Decidable (_ ∧ _ ∧ _))

section

variable {depth : Nat} {c : Char}

theorem bracesAfter?_hidden (rest : List Char) :
    bracesAfter? depth ('\\' :: c :: rest) = bracesAfter? depth rest := by
  rw [bracesAfter?, if_pos rfl]

theorem bracesAfter?_cons (hc : c ≠ '\\') (rest : List Char) :
    bracesAfter? depth (c :: rest) = bracesAfter? (Delimiters.depthAfter depth [c]) rest := by
  rw [bracesAfter?.eq_def]
  exact if_neg hc

theorem IsPlain.depthAfter (h : IsPlain c) : Delimiters.depthAfter depth [c] = depth := by
  simp [Delimiters.depthAfter, h.2.1, h.2.2]

theorem bracesAfter?_plain (h : IsPlain c) (rest : List Char) :
    bracesAfter? depth (c :: rest) = bracesAfter? depth rest := by
  rw [bracesAfter?_cons h.1, h.depthAfter]

theorem bracesAfter?_append {plain : List Char} (h : ∀ c ∈ plain, IsPlain c) (rest : List Char) :
    bracesAfter? depth (plain ++ rest) = bracesAfter? depth rest := by
  induction plain with
  | nil => rfl
  | cons c plain ih =>
    rw [List.cons_append, bracesAfter?_plain (h c (List.mem_cons_self ..)),
      ih fun d hd => h d (List.mem_cons_of_mem _ hd)]

theorem isPlain_of_isAlpha (h : c.isAlpha = true) : IsPlain c := by
  refine ⟨?_, ?_, ?_⟩ <;> (rintro rfl; exact absurd h (by decide))

theorem isPlain_of_isDigit (h : c.isDigit = true) : IsPlain c := by
  refine ⟨?_, ?_, ?_⟩ <;> (rintro rfl; exact absurd h (by decide))

end

/-! ### Mathematics between delimiters -/

namespace Delimiters

/-- The closers of the usual delimiters. -/
def Closer.IsUsual (closer : Closer) : Prop :=
  closer ∈ [delimiter ['$'], delimiter ['\\', ')'], delimiter ['$', '$'], delimiter ['\\', ']']]

instance : DecidablePred Closer.IsUsual := fun _ => inferInstanceAs (Decidable (_ ∈ _))

variable {closer : Closer}

/-- A search that counts braces may pass over the closer as a whole: it leaves as many braces open
as there were, closes none before its last character and hides nothing after it. -/
structure Closer.IsTame (closer : Closer) : Prop where
  ne_nil {mark : List Char} (h : closer.IsSpelled mark) : mark ≠ []
  head {mark : List Char} (h : closer.IsSpelled mark) : mark.head? ≠ some '\n'
  braces {mark : List Char} (h : closer.IsSpelled mark) (depth : Nat) (rest : List Char) :
    bracesAfter? depth (mark ++ rest) = bracesAfter? depth rest
  depth {mark : List Char} (h : closer.IsSpelled mark) (depth : Nat) : depthAfter depth mark = depth
  inner {mark : List Char} (h : closer.IsSpelled mark) : '\x7d' ∉ mark.dropLast

theorem Closer.isTame_delimiter {text : List Char} (hne : text ≠ []) (hhead : text.head? ≠ some '\n')
    (hinner : '\x7d' ∉ text.dropLast) (hdepth : ∀ depth, depthAfter depth text = depth)
    (hbraces : ∀ depth rest, bracesAfter? depth (text ++ rest) = bracesAfter? depth rest) :
    (delimiter text).IsTame where
  ne_nil h := h ▸ hne
  head h := h ▸ hhead
  braces h := h ▸ hbraces
  depth h := h ▸ hdepth
  inner h := h ▸ hinner

theorem Closer.IsUsual.isTame (h : closer.IsUsual) : closer.IsTame := by
  simp only [IsUsual, List.mem_cons, List.not_mem_nil, or_false] at h
  have hdollar : IsPlain '$' := by decide
  rcases h with rfl | rfl | rfl | rfl
  · exact isTame_delimiter (by decide) (by decide) (by decide) (fun _ => rfl)
      fun _ rest => bracesAfter?_plain hdollar rest
  · exact isTame_delimiter (by decide) (by decide) (by decide) (fun _ => rfl)
      fun _ rest => bracesAfter?_hidden rest
  · exact isTame_delimiter (by decide) (by decide) (by decide) (fun _ => rfl)
      fun _ rest => (bracesAfter?_plain hdollar _).trans (bracesAfter?_plain hdollar rest)
  · exact isTame_delimiter (by decide) (by decide) (by decide) (fun _ => rfl)
      fun _ rest => bracesAfter?_hidden rest

theorem Closer.passed_of_ne {c : Char} {rest : List Char}
    (hlength : closer.length? (c :: rest) = none) (hc : c ≠ '\\') : closer.passed c rest = 0 := by
  cases rest <;> simp [passed, hlength, hc]

theorem Closer.passed_backslash {d : Char} {rest : List Char}
    (hlength : closer.length? ('\\' :: d :: rest) = none) :
    closer.passed '\\' (d :: rest) = if d ≠ '\n' then 1 else 0 := by
  simp [passed, hlength]

/-- What is passed over together with a character has no brace besides it, if a closer comes
later. -/
theorem piece_braces (h : closer.IsTame) {depth : Nat} {c : Char} {rest before mark after : List Char}
    (hsplit : rest.drop (closer.passed c rest) = before ++ mark ++ after)
    (hmark : closer.IsSpelled mark) :
    bracesAfter? depth (c :: rest.take (closer.passed c rest) ++ before) =
      bracesAfter? (depthAfter depth (c :: rest.take (closer.passed c rest))) before := by
  cases hlength : closer.length? (c :: rest) with
  | some m =>
    -- a closer inside braces
    obtain ⟨-, hspelled⟩ := Closer.length?_eq_some hlength
    obtain ⟨m, rfl⟩ : ∃ k, m = k + 1 :=
      Nat.exists_eq_succ_of_ne_zero fun hzero => h.ne_nil hspelled (by rw [hzero]; rfl)
    have hwhole : c :: rest.take (closer.passed c rest) = (c :: rest).take (m + 1) := by
      simp [Closer.passed, hlength]
    rw [hwhole, h.braces hspelled, h.depth hspelled]
  | none =>
    by_cases hc : c = '\\'
    · subst hc
      cases rest with
      | nil =>
        rw [List.drop_nil] at hsplit
        have hnil := (List.append_eq_nil_iff.1 (List.append_eq_nil_iff.1 hsplit.symm).1).2
        exact absurd hnil (h.ne_nil hmark)
      | cons d rest =>
        have hpassed := Closer.passed_backslash hlength
        by_cases hd : d = '\n'
        · -- the search sees the two characters apart, the other one first
          rw [if_neg (not_not.2 hd)] at hpassed
          rw [hpassed] at hsplit ⊢
          subst hd
          cases before with
          | nil =>
            cases mark with
            | nil => exact absurd rfl (h.ne_nil hmark)
            | cons e mark =>
              obtain rfl := (List.cons.inj hsplit).1
              exact absurd rfl (h.head hmark)
          | cons e before =>
            obtain rfl := (List.cons.inj hsplit).1
            exact (bracesAfter?_hidden before).trans (bracesAfter?_plain (by decide) before).symm
        · rw [if_pos hd] at hpassed
          rw [hpassed]
          exact bracesAfter?_hidden before
    · rw [Closer.passed_of_ne hlength hc, List.take_zero]
      exact bracesAfter?_cons hc before

/-- The part of a text before a closer closes its braces and hides nothing after it. -/
theorem closing?_braces (h : closer.IsTame) {depth : Nat} {s : List Char} {cut : Cut}
    (hcut : closing? closer depth s = some cut) : bracesAfter? depth cut.body = some 0 := by
  fun_induction closing? closer depth s generalizing cut with
  | case1 depth s n hn =>
    cases hcut
    split at hn
    · rename_i hdepth
      rw [hdepth]
      rfl
    · cases hn
  | case2 => cases hcut
  | case3 depth c rest n piece hnone =>
    rename_i ih
    obtain ⟨inner, hinner, rfl⟩ := Option.map_eq_some_iff.1 hcut
    exact (piece_braces h (closing?_eq_some hinner) (closing?_mark hinner)).trans (ih hinner)

/-- Mathematics between the usual delimiters closes its braces and hides nothing after it. -/
theorem find_braces {strings : List String} {x : Sighting} (hx : x ∈ find {} strings)
    (hopener : x.opener ≠ "") : bracesAfter? 0 x.math.toList = some 0 := by
  obtain ⟨j, s, -, hx, -⟩ := find_spec hx
  obtain ⟨begin, more, c, t, others, opening, hopen, hseen⟩ :=
    (scans_findFrom {} j 0 s.toList).exists_opening hx
  obtain ⟨-, hkind⟩ := opening?_eq_some hopen
  rcases hkind with ⟨opener, hmem, rfl, -⟩ | ⟨name, blanks, rfl, -⟩ | rfl
  · have husual : ∀ opener ∈ openers {}, ∃ closer display,
        opening {} opener = .math closer display ∧ (Closer.delimiter closer).IsUsual := by
      intro opener hmem
      have hmem : opener ∈ ["$", "\\(", "$$", "\\["] := List.mem_mergeSort.1 hmem
      simp only [List.mem_cons, List.not_mem_nil, or_false] at hmem
      rcases hmem with rfl | rfl | rfl | rfl
      · exact ⟨['$'], false, by decide, by decide⟩
      · exact ⟨['\\', ')'], false, by decide, by decide⟩
      · exact ⟨['$', '$'], true, by decide, by decide⟩
      · exact ⟨['\\', ']'], true, by decide, by decide⟩
    obtain ⟨closer, display, hopening, hcloser⟩ := husual opener hmem
    rw [hopening] at hseen
    obtain ⟨cut, hcut, heq⟩ := Option.map_eq_some_iff.1 hseen
    obtain ⟨rfl, -⟩ := Prod.mk.inj heq
    rw [String.toList_ofList]
    exact closing?_braces hcloser.isTame hcut
  · obtain ⟨cut, -, heq⟩ := Option.map_eq_some_iff.1 hseen
    obtain ⟨rfl, -⟩ := Prod.mk.inj heq
    exact absurd rfl hopener
  · cases hseen

end Delimiters

/-! ### Tokens -/

namespace TokenKind

/-- The number of braces that are open after a token. -/
def bracesAfter (kind : TokenKind) (depth : Nat) : Nat :=
  match kind with
  | openBrace => depth + 1
  | closeBrace => depth - 1
  | _ => depth

namespace Spells

variable {kind : TokenKind} {s : List Char}

theorem braces (h : kind.Spells s) (depth : Nat) (after : List Char) :
    bracesAfter? depth (s ++ after) = bracesAfter? (kind.bracesAfter depth) after := by
  have hdigits {digits : List Char} (h : ∀ d ∈ digits, d.isDigit = true) (rest : List Char) :
      bracesAfter? depth (digits ++ rest) = bracesAfter? depth rest :=
    bracesAfter?_append (fun d hd => isPlain_of_isDigit (h d hd)) rest
  have hplaces {e : Char} {places : List Char} (place : e.isDigit = true)
      (more : ∀ d ∈ places, d.isDigit = true) :
      bracesAfter? depth ('.' :: (e :: places ++ after)) = bracesAfter? depth after := by
    rw [bracesAfter?_plain (by decide), hdigits (List.forall_mem_cons.2 ⟨place, more⟩)]
  cases h with
  | controlWord first others =>
    rw [List.cons_append, List.cons_append, bracesAfter?_hidden]
    exact bracesAfter?_append (fun d hd => isPlain_of_isAlpha (others d hd)) after
  | controlSymbol => exact bracesAfter?_hidden after
  | parameter digit =>
    have hplain := isPlain_of_isDigit (isDigit_of_isParameterDigit digit)
    exact (bracesAfter?_plain (by decide) _).trans (bracesAfter?_plain hplain after)
  | letter alpha => exact bracesAfter?_plain (isPlain_of_isAlpha alpha) after
  | whole first others => exact hdigits (List.forall_mem_cons.2 ⟨first, others⟩) after
  | decimal first others place more =>
    rw [← List.cons_append, List.append_assoc, hdigits (List.forall_mem_cons.2 ⟨first, others⟩)]
    exact hplaces place more
  | fraction place more => exact hplaces place more
  | openBrace => exact bracesAfter?_cons (by decide) after
  | closeBrace => exact bracesAfter?_cons (by decide) after
  | @other c special =>
    have hplain : IsPlain c := by simpa [IsPlain] using special
    exact bracesAfter?_plain hplain after

theorem isBrace_iff (h : kind.Spells s) :
    (kind = .openBrace ↔ s = ['\x7b']) ∧ (kind = .closeBrace ↔ s = ['\x7d']) := by
  cases h with
  | letter alpha => simp [(isPlain_of_isAlpha alpha).2]
  | whole first => simp [(isPlain_of_isDigit first).2]
  | decimal first => simp [(isPlain_of_isDigit first).2]
  | other special => simp_all
  | _ => simp

end Spells

end TokenKind

namespace Token

/-- The number of braces that are open after some tokens. -/
def bracesAfter (depth : Nat) : List Token → Nat
  | [] => depth
  | t :: rest => bracesAfter (t.kind.bracesAfter depth) rest

/-- The kind of the token tells braces as their spelling does. -/
structure IsBraced (t : Token) : Prop where
  opens : t.kind = .openBrace ↔ t.text = "\x7b"
  closes : t.kind = .closeBrace ↔ t.text = "\x7d"

/-- The token at the head of a text opens and closes the braces that its characters do. -/
theorem lexeme?_braces {c : Char} {rest : List Char} {kind : TokenKind} {more : Nat}
    (h : lexeme? c rest = some (kind, more)) (depth : Nat) :
    bracesAfter? depth (c :: rest) = bracesAfter? (kind.bracesAfter depth) (rest.drop more) := by
  obtain ⟨tail, after, rfl, rfl, hspells, -⟩ := lexeme?_eq_some_iff.1 h
  rw [List.drop_left]
  exact hspells.braces depth after

theorem isPlain_of_isSeparator {c : Char} (h : isSeparator c = true) : IsPlain c := by
  refine ⟨?_, ?_, ?_⟩ <;> (rintro rfl; exact absurd h (by decide))

/-- The tokens of a text leave as many braces open as the text. -/
theorem tokensFrom_braces {start : Nat} {s : List Char} {tokens : List Token}
    (h : tokensFrom start s = .ok tokens) (depth : Nat) :
    bracesAfter? depth s = some (bracesAfter depth tokens) := by
  fun_induction tokensFrom start s generalizing tokens depth with
  | case1 =>
    cases h
    rfl
  | case2 start c rest hseparator ih =>
    rw [bracesAfter?_plain (isPlain_of_isSeparator hseparator), ih h]
  | case3 => cases h
  | case4 => cases h
  | case5 start c rest hseparator kind more hlexeme others hothers ih =>
    cases h
    rw [lexeme?_braces hlexeme, ih hothers]
    rfl

theorem tokensFrom_isBraced {start : Nat} {s : List Char} {tokens : List Token}
    (h : tokensFrom start s = .ok tokens) : ∀ t ∈ tokens, t.IsBraced := by
  fun_induction tokensFrom start s generalizing tokens with
  | case1 =>
    cases h
    exact fun t ht => absurd ht List.not_mem_nil
  | case2 start c rest _ ih => exact ih h
  | case3 => cases h
  | case4 => cases h
  | case5 start c rest hseparator kind more hlexeme others hothers ih =>
    cases h
    refine List.forall_mem_cons.2 ⟨?_, ih hothers⟩
    obtain ⟨tail, after, rfl, rfl, hspells, -⟩ := lexeme?_eq_some_iff.1 hlexeme
    rw [List.take_left]
    have hspelled (brace : Char) :
        c :: tail = [brace] ↔ String.ofList (c :: tail) = String.singleton brace := by
      rw [← String.toList_inj, String.toList_ofList, String.toList_singleton]
    exact ⟨hspells.isBrace_iff.1.trans (hspelled _), hspells.isBrace_iff.2.trans (hspelled _)⟩

/-- A text that does not end in a lone backslash is not refused for one. -/
theorem tokensFrom_error {start : Nat} {s : List Char} {e : TexError}
    (h : tokensFrom start s = .error e) {depth : Nat} (hs : bracesAfter? depth s ≠ none) :
    ∃ c, e.cause = .unexpectedCharacter c ∧ c ≠ '\\' := by
  fun_induction tokensFrom start s generalizing depth with
  | case1 => cases h
  | case2 start c rest hseparator ih =>
    rw [bracesAfter?_plain (isPlain_of_isSeparator hseparator)] at hs
    exact ih h hs
  | case3 start c rest _ hlexeme =>
    cases h
    refine ⟨c, rfl, ?_⟩
    rintro rfl
    cases rest with
    | nil => exact hs rfl
    | cons d rest =>
      rw [lexeme?.eq_def, if_pos rfl, command?] at hlexeme
      split at hlexeme <;> cases hlexeme
  | case4 start c rest _ kind more hlexeme e' he ih =>
    cases h
    rw [lexeme?_braces hlexeme] at hs
    exact ih he hs
  | case5 => cases h

end Token

end Formulary
