import Mathlib.Data.List.TakeWhile
import Formulary.Tex.Token

/-! # Lexemes

`TokenKind.Spells` says how the tokens of a kind are spelled, and `TokenKind.EndsBefore` what must
not follow a token because it would belong to it.  `Token.lexeme?` finds just the token that is
spelled at the head of a text and is not too short (`Token.lexeme?_eq_some_iff`).

A token is made of inert characters, apart from a backslash and the one character that it may take
(`TokenKind.Spells.inert`). -/

namespace Formulary

/-! ### How tokens are spelled -/

/-- The text begins with a character of a class. -/
def begins (p : Char → Bool) : List Char → Bool
  | [] => false
  | c :: _ => p c

/-- The text begins with a point and a digit. -/
def beginsFraction : List Char → Bool
  | '.' :: rest => begins Char.isDigit rest
  | _ => false

/-- The digits that number a parameter. -/
def isParameterDigit (c : Char) : Bool := '1' ≤ c && c ≤ '9'

namespace TokenKind

/-- The spellings of the tokens of a kind. -/
inductive Spells : TokenKind → List Char → Prop
  | controlWord {c : Char} {letters : List Char} (first : c.isAlpha = true)
      (others : ∀ d ∈ letters, d.isAlpha = true) : Spells controlWord ('\\' :: c :: letters)
  | controlSymbol {c : Char} (symbol : c.isAlpha = false) : Spells controlSymbol ['\\', c]
  | parameter {c : Char} (digit : isParameterDigit c = true) : Spells parameter ['#', c]
  | letter {c : Char} (alpha : c.isAlpha = true) : Spells letter [c]
  | whole {c : Char} {digits : List Char} (first : c.isDigit = true)
      (others : ∀ d ∈ digits, d.isDigit = true) : Spells number (c :: digits)
  | decimal {c e : Char} {digits places : List Char} (first : c.isDigit = true)
      (others : ∀ d ∈ digits, d.isDigit = true) (place : e.isDigit = true)
      (more : ∀ d ∈ places, d.isDigit = true) : Spells number (c :: (digits ++ '.' :: e :: places))
  | fraction {e : Char} {places : List Char} (place : e.isDigit = true)
      (more : ∀ d ∈ places, d.isDigit = true) : Spells number ('.' :: e :: places)
  | openBrace : Spells openBrace ['\x7b']
  | closeBrace : Spells closeBrace ['\x7d']
  | other {c : Char} (special : c ∉ ['\\', '\x7b', '\x7d']) (alpha : c.isAlpha = false)
      (digit : c.isDigit = false) (blank : Text.isBlank c = false) : Spells other [c]

/-- The token is not too short: what follows it would not make a longer one of it. -/
def EndsBefore (kind : TokenKind) (spelled after : List Char) : Prop :=
  match kind with
  | controlWord => begins Char.isAlpha after = false
  | number =>
    begins Char.isDigit after = false ∧ ('.' ∉ spelled → beginsFraction after = false)
  | other =>
    (spelled = ['#'] → begins isParameterDigit after = false) ∧
      (spelled = ['.'] → begins Char.isDigit after = false)
  | _ => True

end TokenKind

/-! ### Runs of characters -/

section

variable {p : Char → Bool} {run after : List Char}

theorem begins_dropWhile (p : Char → Bool) (s : List Char) : begins p (s.dropWhile p) = false := by
  have h := List.head?_dropWhile_not p s
  cases hs : s.dropWhile p with
  | nil => rfl
  | cons c rest =>
    rw [hs] at h
    exact h

theorem takeWhile_run (hrun : ∀ c ∈ run, p c = true) (hafter : begins p after = false) :
    (run ++ after).takeWhile p = run := by
  rw [List.takeWhile_append_of_pos hrun]
  cases after with
  | nil => simp
  | cons c rest =>
    have hc : p c = false := hafter
    simp [hc]

theorem exists_run (p : Char → Bool) (s : List Char) :
    ∃ run after, s = run ++ after ∧ (∀ c ∈ run, p c = true) ∧ begins p after = false :=
  ⟨s.takeWhile p, s.dropWhile p, List.takeWhile_append_dropWhile.symm,
    fun _ => List.mem_takeWhile_imp, begins_dropWhile p s⟩

end

theorem isAlpha_iff {c : Char} : c.isAlpha = true ↔
    (0x41 ≤ c.toNat ∧ c.toNat ≤ 0x5A) ∨ (0x61 ≤ c.toNat ∧ c.toNat ≤ 0x7A) := by
  show (decide (c.val ≥ 0x41 ∧ c.val ≤ 0x5A) ||
    decide (c.val ≥ 0x61) && decide (c.val ≤ 0x7A)) = true ↔ _
  simp only [Bool.or_eq_true, Bool.and_eq_true, decide_eq_true_eq, ge_iff_le,
    UInt32.le_iff_toNat_le]
  rfl

theorem isDigit_iff {c : Char} : c.isDigit = true ↔ 0x30 ≤ c.toNat ∧ c.toNat ≤ 0x39 := by
  show (decide (c.val ≥ 0x30) && decide (c.val ≤ 0x39)) = true ↔ _
  simp only [Bool.and_eq_true, decide_eq_true_eq, ge_iff_le, UInt32.le_iff_toNat_le]
  rfl

theorem not_isDigit_of_isAlpha {c : Char} (h : c.isAlpha = true) : c.isDigit = false := by
  rw [Bool.eq_false_iff, ne_eq, isDigit_iff]
  have halpha := isAlpha_iff.1 h
  omega

theorem ne_of_class {p : Char → Bool} {c d : Char} (hc : p c = true) (hd : p d = false) : c ≠ d := by
  rintro rfl
  rw [hd] at hc
  cases hc

/-- A character that a text may hold anywhere. -/
def IsInert (c : Char) : Prop := Text.isBlank c = false ∧ c ≠ '\\'

instance : DecidablePred IsInert := fun _ => inferInstanceAs (Decidable (_ ∧ _))

theorem isInert_of_range {c : Char} (h : 0x21 ≤ c.toNat ∧ c.toNat ≤ 0x7E) (hc : c ≠ '\\') :
    IsInert c := by
  refine ⟨?_, hc⟩
  simp [Text.isBlank]
  omega

theorem isDigit_of_isParameterDigit {c : Char} (h : isParameterDigit c = true) :
    c.isDigit = true := by
  simp only [isParameterDigit, Char.isDigit, Bool.and_eq_true, decide_eq_true_eq] at h ⊢
  exact ⟨UInt32.le_trans (by decide) h.1, h.2⟩

theorem isInert_of_isAlpha {c : Char} (h : c.isAlpha = true) : IsInert c := by
  refine isInert_of_range ?_ (ne_of_class h rfl)
  have halpha := isAlpha_iff.1 h
  omega

theorem isInert_of_isDigit {c : Char} (h : c.isDigit = true) : IsInert c := by
  refine isInert_of_range ?_ (ne_of_class h rfl)
  have hdigit := isDigit_iff.1 h
  omega

namespace Token

/-! ### The token at the head of a text -/

theorem fraction?_run {e : Char} {places after : List Char} (place : e.isDigit = true)
    (more : ∀ d ∈ places, d.isDigit = true) (h : begins Char.isDigit after = false) :
    fraction? ('.' :: e :: (places ++ after)) = some (2 + places.length) := by
  rw [fraction?, if_pos place, digitsAfter, takeWhile_run more h]

theorem fraction?_eq_none {s : List Char} (h : beginsFraction s = false) : fraction? s = none := by
  unfold fraction?
  split
  · rename_i d rest
    have hd : d.isDigit = false := h
    simp [hd]
  · rfl

theorem exists_of_fraction? {s : List Char} {n : Nat} (h : fraction? s = some n) :
    ∃ e places after, s = '.' :: e :: (places ++ after) ∧ n = 2 + places.length ∧
      e.isDigit = true ∧ (∀ d ∈ places, d.isDigit = true) ∧ begins Char.isDigit after = false := by
  unfold fraction? at h
  split at h
  · rename_i e rest
    obtain ⟨places, after, rfl, hplaces, hafter⟩ := exists_run Char.isDigit rest
    split at h
    · rename_i he
      rw [digitsAfter, takeWhile_run hplaces hafter] at h
      exact ⟨e, places, after, rfl, (Option.some.inj h).symm, he, hplaces, hafter⟩
    · cases h
  · cases h

theorem beginsFraction_of_fraction? {s : List Char} (h : fraction? s = none) :
    beginsFraction s = false := by
  unfold beginsFraction
  split
  · rename_i rest
    cases rest with
    | nil => rfl
    | cons d rest =>
      rw [fraction?] at h
      split at h
      · cases h
      · rename_i hd
        exact Bool.eq_false_iff.2 hd
  · rfl

/-- A number that begins with some digits takes the fraction that follows them. -/
theorem lexeme?_digits {c : Char} {digits after : List Char} (first : c.isDigit = true)
    (others : ∀ d ∈ digits, d.isDigit = true) (hafter : begins Char.isDigit after = false) :
    lexeme? c (digits ++ after) = some (.number, digits.length + (fraction? after).getD 0) := by
  have hne {d : Char} (hd : d.isDigit = false) : c ≠ d := ne_of_class first hd
  have halpha : c.isAlpha = false := by
    by_contra h
    rw [not_isDigit_of_isAlpha (by simpa using h)] at first
    cases first
  have hrun : digitsAfter (digits ++ after) = digits.length := by
    rw [digitsAfter, takeWhile_run others hafter]
  simp [lexeme?, hne, halpha, first, hrun]

/-- A token of a kind, spelled with `c` and as many of the characters after it, is at the head of a
text and not too short. -/
def Heads (kind : TokenKind) (c : Char) (rest : List Char) (more : Nat) : Prop :=
  ∃ tail after, rest = tail ++ after ∧ more = tail.length ∧ kind.Spells (c :: tail) ∧
    kind.EndsBefore (c :: tail) after

/-- What begins with a spelling that is not too short begins with that token. -/
theorem lexeme?_of_spells {kind : TokenKind} {c : Char} {tail after : List Char}
    (hspells : kind.Spells (c :: tail)) (hends : kind.EndsBefore (c :: tail) after) :
    lexeme? c (tail ++ after) = some (kind, tail.length) := by
  cases hspells with
  | @controlWord d letters first others =>
    have hletters := takeWhile_run others hends
    unfold lexeme?
    rw [if_pos rfl, List.cons_append, command?, if_pos first, hletters, List.length_cons,
      Nat.add_comm]
  | controlSymbol symbol => simp [lexeme?, command?, symbol]
  | @parameter d digit =>
    have hdigit : '1' ≤ d ∧ d ≤ '9' := by simpa [isParameterDigit] using digit
    simp [lexeme?, hdigit]
  | letter alpha =>
    have hne {d : Char} (hd : d.isAlpha = false) : c ≠ d := ne_of_class alpha hd
    simp [lexeme?, hne, alpha]
  | whole first others =>
    have hpoint : '.' ∉ c :: tail := by
      intro h
      have hdigit : ('.').isDigit = true := by
        rcases List.mem_cons.1 h with rfl | h
        · exact first
        · exact others _ h
      exact absurd hdigit (by decide)
    rw [lexeme?_digits first others hends.1, fraction?_eq_none (hends.2 hpoint)]
    rfl
  | @decimal _ e digits places first others place more =>
    have hpoint : begins Char.isDigit ('.' :: e :: (places ++ after)) = false := rfl
    have hfraction := fraction?_run place more hends.1
    rw [List.append_assoc, List.cons_append, List.cons_append, lexeme?_digits first others hpoint,
      hfraction, Option.getD_some, List.length_append, List.length_cons, List.length_cons]
    rw [Nat.add_comm 2]
  | @fraction e places place more =>
    have hfraction := fraction?_run place more hends.1
    simp [lexeme?, hfraction]
    omega
  | openBrace => rfl
  | closeBrace => rfl
  | other special alpha digit blank =>
    have hspecial : c ≠ '\\' ∧ c ≠ '\x7b' ∧ c ≠ '\x7d' := by simpa using special
    by_cases hpoint : c = '.'
    · subst hpoint
      have hnone : fraction? ('.' :: after) = none := fraction?_eq_none (hends.2 rfl)
      simp [lexeme?, hnone]
    by_cases hhash : c = '#'
    · subst hhash
      have hnone := hends.1 rfl
      cases after with
      | nil => rfl
      | cons d after => simpa [lexeme?, begins, isParameterDigit] using hnone
    simp [lexeme?, hspecial, alpha, digit, hpoint, hhash, blank]

theorem heads_of_command? {kind : TokenKind} {rest : List Char} {more : Nat}
    (h : command? rest = some (kind, more)) : Heads kind '\\' rest more := by
  cases rest with
  | nil => cases h
  | cons d rest =>
    rw [command?] at h
    split at h
    · rename_i hd
      obtain ⟨letters, after, rfl, hletters, hafter⟩ := exists_run Char.isAlpha rest
      rw [takeWhile_run hletters hafter] at h
      cases h
      exact ⟨d :: letters, after, rfl, Nat.add_comm .., .controlWord hd hletters, hafter⟩
    · rename_i hd
      cases h
      exact ⟨[d], rest, rfl, rfl, .controlSymbol (Bool.eq_false_iff.2 hd), trivial⟩

theorem heads_of_isDigit {kind : TokenKind} {c : Char} {rest : List Char} {more : Nat}
    (first : c.isDigit = true) (h : lexeme? c rest = some (kind, more)) : Heads kind c rest more := by
  obtain ⟨digits, after, rfl, others, hafter⟩ := exists_run Char.isDigit rest
  rw [lexeme?_digits first others hafter] at h
  cases hfraction : fraction? after with
  | none =>
    rw [hfraction] at h
    cases h
    exact ⟨digits, after, rfl, rfl, .whole first others, hafter,
      fun _ => beginsFraction_of_fraction? hfraction⟩
  | some n =>
    rw [hfraction] at h
    obtain ⟨e, places, after, rfl, rfl, place, more, hafter⟩ := exists_of_fraction? hfraction
    cases h
    refine ⟨digits ++ '.' :: e :: places, after, by simp, ?_, .decimal first others place more,
      hafter, fun hpoint => absurd ?_ hpoint⟩
    · simp
      omega
    · simp

theorem heads_point {kind : TokenKind} {rest : List Char} {more : Nat}
    (h : lexeme? '.' rest = some (kind, more)) : Heads kind '.' rest more := by
  cases hfraction : fraction? ('.' :: rest) with
  | none =>
    simp [lexeme?, hfraction] at h
    obtain ⟨rfl, rfl⟩ := h
    exact ⟨[], rest, rfl, rfl, .other (by decide) rfl rfl rfl, fun hhash => absurd hhash (by decide),
      fun _ => beginsFraction_of_fraction? hfraction⟩
  | some n =>
    simp [lexeme?, hfraction] at h
    obtain ⟨rfl, rfl⟩ := h
    obtain ⟨e, places, after, heq, rfl, place, more, hafter⟩ := exists_of_fraction? hfraction
    obtain ⟨-, rfl⟩ := List.cons.inj heq
    refine ⟨e :: places, after, rfl, ?_, .fraction place more, hafter, fun hpoint =>
      absurd (List.mem_cons_self ..) hpoint⟩
    simp
    omega

theorem heads_hash {kind : TokenKind} {rest : List Char} {more : Nat}
    (h : lexeme? '#' rest = some (kind, more)) : Heads kind '#' rest more := by
  cases rest with
  | nil =>
    cases h
    exact ⟨[], [], rfl, rfl, .other (by decide) rfl rfl rfl, fun _ => rfl, fun _ => rfl⟩
  | cons d rest =>
    cases hd : isParameterDigit d with
    | true =>
      have hdigit : '1' ≤ d ∧ d ≤ '9' := by simpa [isParameterDigit] using hd
      simp [lexeme?, hdigit] at h
      obtain ⟨rfl, rfl⟩ := h
      exact ⟨[d], rest, rfl, rfl, .parameter hd, trivial⟩
    | false =>
      have hdigit : ¬('1' ≤ d ∧ d ≤ '9') := by simpa [isParameterDigit] using hd
      simp [lexeme?, hdigit] at h
      obtain ⟨rfl, rfl⟩ := h
      exact ⟨[], d :: rest, rfl, rfl, .other (by decide) rfl rfl rfl, fun _ => hd,
        fun hpoint => absurd hpoint (by decide)⟩

/-- `lexeme?` finds the token at the head of a text, if one is there. -/
theorem lexeme?_eq_some_iff {kind : TokenKind} {c : Char} {rest : List Char} {more : Nat} :
    lexeme? c rest = some (kind, more) ↔ Heads kind c rest more := by
  constructor
  · intro h
    by_cases hdigit : c.isDigit = true
    · exact heads_of_isDigit hdigit h
    by_cases hpoint : c = '.'
    · subst hpoint
      exact heads_point h
    by_cases hhash : c = '#'
    · subst hhash
      exact heads_hash h
    unfold lexeme? at h
    split at h
    · rename_i hc
      subst hc
      exact heads_of_command? h
    rename_i hbackslash
    split at h
    · rename_i hc
      subst hc
      cases h
      exact ⟨[], rest, rfl, rfl, .openBrace, trivial⟩
    rename_i hopen
    split at h
    · rename_i hc
      subst hc
      cases h
      exact ⟨[], rest, rfl, rfl, .closeBrace, trivial⟩
    rename_i hclose
    split at h
    · rename_i halpha
      cases h
      exact ⟨[], rest, rfl, rfl, .letter halpha, trivial⟩
    rename_i halpha
    split at h
    · cases h
    · rename_i hblank
      cases h
      refine ⟨[], rest, rfl, rfl, .other ?_ (Bool.eq_false_iff.2 halpha) (Bool.eq_false_iff.2 hdigit)
        (Bool.eq_false_iff.2 hblank), fun heq => ?_, fun heq => ?_⟩
      · simp [hbackslash, hopen, hclose]
      · exact absurd (List.cons.inj heq).1 hhash
      · exact absurd (List.cons.inj heq).1 hpoint
  · rintro ⟨tail, after, rfl, rfl, hspells, hends⟩
    exact lexeme?_of_spells hspells hends

end Token

namespace TokenKind.Spells

variable {kind : TokenKind} {c : Char} {s tail : List Char}

theorem ne_nil (h : kind.Spells s) : s ≠ [] := by
  cases h <;> exact List.cons_ne_nil _ _

/-- The characters of a token are inert, apart from a backslash and the one character that it may
take. -/
theorem inert (h : kind.Spells s) : (∃ c, s = ['\\', c]) ∨
    ∃ run, run ≠ [] ∧ (∀ d ∈ run, IsInert d) ∧ (s = run ∨ s = '\\' :: run) := by
  have hdigits {c : Char} {digits : List Char} (first : c.isDigit = true)
      (others : ∀ d ∈ digits, d.isDigit = true) : ∀ d ∈ c :: digits, IsInert d :=
    List.forall_mem_cons.2
      ⟨isInert_of_isDigit first, fun d hd => isInert_of_isDigit (others d hd)⟩
  have hpoint : IsInert '.' := by decide
  cases h with
  | controlWord first others =>
    refine .inr ⟨_, List.cons_ne_nil _ _, List.forall_mem_cons.2 ⟨isInert_of_isAlpha first, ?_⟩,
      .inr rfl⟩
    exact fun d hd => isInert_of_isAlpha (others d hd)
  | controlSymbol => exact .inl ⟨_, rfl⟩
  | parameter digit =>
    have hrun := hdigits (isDigit_of_isParameterDigit digit) (fun d hd => absurd hd List.not_mem_nil)
    exact .inr ⟨_, List.cons_ne_nil _ _, List.forall_mem_cons.2 ⟨by decide, hrun⟩, .inl rfl⟩
  | letter alpha =>
    exact .inr ⟨_, List.cons_ne_nil _ _, List.forall_mem_singleton.2 (isInert_of_isAlpha alpha),
      .inl rfl⟩
  | whole first others =>
    exact .inr ⟨_, List.cons_ne_nil _ _, hdigits first others, .inl rfl⟩
  | decimal first others place more =>
    refine .inr ⟨_, List.cons_ne_nil _ _, ?_, .inl rfl⟩
    rw [← List.cons_append]
    exact List.forall_mem_append.2
      ⟨hdigits first others, List.forall_mem_cons.2 ⟨hpoint, hdigits place more⟩⟩
  | fraction place more =>
    exact .inr ⟨_, List.cons_ne_nil _ _, List.forall_mem_cons.2 ⟨hpoint, hdigits place more⟩,
      .inl rfl⟩
  | openBrace | closeBrace =>
    exact .inr ⟨_, List.cons_ne_nil _ _, List.forall_mem_singleton.2 (by decide), .inl rfl⟩
  | other special _ _ blank =>
    refine .inr ⟨_, List.cons_ne_nil _ _, List.forall_mem_singleton.2 ⟨blank, ?_⟩, .inl rfl⟩
    rintro rfl
    exact special (List.mem_cons_self ..)

theorem isBlank_head (h : kind.Spells (c :: tail)) : Text.isBlank c = false := by
  rcases h.inert with ⟨d, heq⟩ | ⟨run, hne, hrun, heq | heq⟩
  · obtain ⟨rfl, -⟩ := List.cons.inj heq
    rfl
  · exact (hrun c (heq ▸ List.mem_cons_self ..)).1
  · obtain ⟨rfl, -⟩ := List.cons.inj heq
    rfl

end TokenKind.Spells

end Formulary
