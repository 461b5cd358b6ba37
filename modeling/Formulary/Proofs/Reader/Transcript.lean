import Formulary.Proofs.Delimiters.BracedClosers
import Formulary.Proofs.Reader.Passages

/-! # Texts without commands

A text without backslashes and parameter signs means itself: each letter, number and sign is a leaf,
and each group in braces an atom around what is in it (`Token.Transcript`).  One token is read into
what is open, whatever that is, with or without the package of bra-kets, and so the reader holds at
any time what the tokens so far leave open (`Token.Suspends`, `Reader.run_plain`).

The text is read if its braces are balanced.  Otherwise the error stands at the first brace that
closes nothing, or at the last one that is not closed (`readTex_transcript`). -/

namespace Formulary

/-! ### Braces in order -/

/-- How many braces are open after a text if `depth` are open before it, and none if one is closed
that is not open. -/
def openAfter? (depth : Nat) : List Char → Option Nat
  | [] => some depth
  | c :: rest =>
    if c = '\x7b' then openAfter? (depth + 1) rest
    else if c = '\x7d' then
      match depth with
      | 0 => none
      | n + 1 => openAfter? n rest
    else openAfter? depth rest

section

variable {depth left : Nat} {c : Char} {s : List Char}

theorem openAfter?_open (depth : Nat) (s : List Char) :
    openAfter? depth ('\x7b' :: s) = openAfter? (depth + 1) s := rfl

theorem openAfter?_close (depth : Nat) (s : List Char) :
    openAfter? (depth + 1) ('\x7d' :: s) = openAfter? depth s := rfl

theorem openAfter?_of_ne (hopen : c ≠ '\x7b') (hclose : c ≠ '\x7d') (s : List Char) :
    openAfter? depth (c :: s) = openAfter? depth s := by
  rw [openAfter?.eq_def]
  dsimp only
  rw [if_neg hopen, if_neg hclose]

theorem openAfter?_append_of_ne {run : List Char} (h : ∀ c ∈ run, c ≠ '\x7b' ∧ c ≠ '\x7d')
    (s : List Char) : openAfter? depth (run ++ s) = openAfter? depth s := by
  induction run with
  | nil => rfl
  | cons c run ih =>
    obtain ⟨⟨hopen, hclose⟩, hrun⟩ := List.forall_mem_cons.1 h
    rw [List.cons_append, openAfter?_of_ne hopen hclose, ih hrun]

theorem surplus_cons (c : Char) (s : List Char) : surplus (c :: s) = surplus [c] + surplus s :=
  surplus_append [c] s

theorem surplus_of_ne (hopen : c ≠ '\x7b') (hclose : c ≠ '\x7d') : surplus [c] = 0 := by
  simp [surplus, hopen, hclose]

/-- What holds of the empty beginning of a text and of all that go on holds of all beginnings. -/
theorem surplus_take_nonneg {k : Int} (hk : 0 ≤ k)
    (h : ∀ p, 0 ≤ k + (surplus [c] + surplus (s.take p))) (p : Nat) :
    0 ≤ k + surplus ((c :: s).take p) := by
  cases p with
  | zero => simpa [surplus] using hk
  | succ p =>
    rw [List.take_succ_cons, surplus_cons]
    exact h p

/-- What is left open is what is opened and not closed, and nothing is closed too early. -/
theorem surplus_of_openAfter? (h : openAfter? depth s = some left) :
    (left : Int) = depth + surplus s ∧ ∀ p, 0 ≤ depth + surplus (s.take p) := by
  have hdepth : (0 : Int) ≤ depth := Int.natCast_nonneg depth
  fun_induction openAfter? depth s with
  | case1 depth =>
    cases h
    simp [surplus]
  | case2 depth rest ih =>
    have hc : surplus ['\x7b'] = 1 := rfl
    obtain ⟨hleft, hnonneg⟩ := ih h (Int.natCast_nonneg _)
    refine ⟨by rw [surplus_cons, hc]; omega, surplus_take_nonneg hdepth fun p => ?_⟩
    have := hnonneg p
    omega
  | case3 => cases h
  | case4 rest _ n ih =>
    have hc : surplus ['\x7d'] = -1 := rfl
    obtain ⟨hleft, hnonneg⟩ := ih h (Int.natCast_nonneg _)
    refine ⟨by rw [surplus_cons, hc]; omega, surplus_take_nonneg hdepth fun p => ?_⟩
    have := hnonneg p
    omega
  | case5 depth c rest hopen hclose ih =>
    have hc : surplus [c] = 0 := surplus_of_ne hopen hclose
    obtain ⟨hleft, hnonneg⟩ := ih h hdepth
    refine ⟨by rw [surplus_cons, hc]; omega, surplus_take_nonneg hdepth fun p => ?_⟩
    have := hnonneg p
    omega

theorem isBalanced_of_openAfter? (h : openAfter? 0 s = some 0) : IsBalanced s := by
  obtain ⟨hclosed, hnonneg⟩ := surplus_of_openAfter? h
  exact ⟨fun p _ => by simpa using hnonneg p, by simpa using hclosed.symm⟩

end

namespace Token

/-! ### The tokens of a text without commands -/

/-- A token of a text without commands. -/
inductive IsPlain : Token → Prop
  | openBrace (start : Nat) : IsPlain ⟨.openBrace, "\x7b", start⟩
  | closeBrace (start : Nat) : IsPlain ⟨.closeBrace, "\x7d", start⟩
  | letter {c : Char} (start : Nat) (alpha : c.isAlpha = true) :
      IsPlain ⟨.letter, String.singleton c, start⟩
  | number {s : List Char} (start : Nat) (hne : s ≠ []) (h : ∀ c ∈ s, c.isDigit = true ∨ c = '.') :
      IsPlain ⟨.number, String.ofList s, start⟩
  | other {c : Char} (start : Nat) (special : c ∉ ['\\', '\x7b', '\x7d', '#'])
      (alpha : c.isAlpha = false) (digit : c.isDigit = false) (blank : Text.isBlank c = false) :
      IsPlain ⟨.other, String.singleton c, start⟩

/-- The characters of some tokens. -/
def spelled (tokens : List Token) : List Char := tokens.flatMap fun t => t.text.toList

variable {t : Token} {kind : TokenKind} {start : Nat} {s : List Char} {tokens : List Token}

theorem isPlain_of_spells (h : kind.Spells s) (hplain : ∀ c ∈ s, c ≠ '\\' ∧ c ≠ '#')
    (start : Nat) : IsPlain ⟨kind, String.ofList s, start⟩ := by
  cases h with
  | controlWord | controlSymbol => exact absurd rfl (hplain _ (List.mem_cons_self ..)).1
  | parameter => exact absurd rfl (hplain _ (List.mem_cons_self ..)).2
  | letter alpha => exact .letter start alpha
  | whole first others =>
    refine .number start (List.cons_ne_nil _ _) (List.forall_mem_cons.2 ⟨.inl first, ?_⟩)
    exact fun c hc => .inl (others c hc)
  | decimal first others place more =>
    refine .number start (List.cons_ne_nil _ _) ?_
    simp only [List.mem_cons, List.mem_append]
    rintro c (rfl | hc | rfl | rfl | hc)
    · exact .inl first
    · exact .inl (others c hc)
    · exact .inr rfl
    · exact .inl place
    · exact .inl (more c hc)
  | fraction place more =>
    refine .number start (List.cons_ne_nil _ _) ?_
    simp only [List.mem_cons]
    rintro c (rfl | rfl | hc)
    · exact .inr rfl
    · exact .inl place
    · exact .inl (more c hc)
  | openBrace => exact .openBrace start
  | closeBrace => exact .closeBrace start
  | @other c special alpha digit blank =>
    refine .other start ?_ alpha digit blank
    have hhash := (hplain c (List.mem_cons_self ..)).2
    simp only [List.mem_cons, List.not_mem_nil, or_false, not_or] at special ⊢
    exact ⟨special.1, special.2.1, special.2.2, hhash⟩

theorem IsPlain.isSeparator (h : t.IsPlain) : ∀ c ∈ t.text.toList, isSeparator c = false := by
  have hblank {c : Char} (h : Text.isBlank c = false) : Token.isSeparator c = false := by
    refine Bool.eq_false_iff.2 fun hc => ?_
    rw [isBlank_of_isSeparator hc] at h
    cases h
  cases h with
  | openBrace | closeBrace => simp [Token.isSeparator]
  | letter start alpha => simpa using hblank (isInert_of_isAlpha alpha).1
  | number start hne h =>
    rw [String.toList_ofList]
    intro c hc
    rcases h c hc with hdigit | rfl
    · exact hblank (isInert_of_isDigit hdigit).1
    · rfl
  | other start _ _ _ blank => simpa using hblank blank

theorem tokensFrom_isPlain (h : tokensFrom start s = .ok tokens)
    (hplain : ∀ c ∈ s, c ≠ '\\' ∧ c ≠ '#') : ∀ t ∈ tokens, t.IsPlain := by
  fun_induction tokensFrom start s generalizing tokens with
  | case1 =>
    cases h
    exact fun t ht => absurd ht List.not_mem_nil
  | case2 start c rest _ ih => exact ih h fun d hd => hplain d (List.mem_cons_of_mem _ hd)
  | case3 => cases h
  | case4 => cases h
  | case5 start c rest hseparator kind more hlexeme others hothers ih =>
    cases h
    obtain ⟨tail, after, rfl, rfl, hspells, -⟩ := lexeme?_eq_some_iff.1 hlexeme
    rw [List.drop_left] at hothers ih
    rw [List.take_left]
    refine List.forall_mem_cons.2 ⟨isPlain_of_spells hspells ?_ start, ih hothers ?_⟩
    · exact fun d hd => hplain d (by simpa using (List.mem_cons.1 hd).imp_right .inl)
    · exact fun d hd => hplain d (by simpa using .inr (.inr hd))

/-- The characters of a text but for its separators. -/
def solid (s : List Char) : List Char := s.filter fun c => !isSeparator c

theorem solid_append (a b : List Char) : solid (a ++ b) = solid a ++ solid b := List.filter_append ..

theorem solid_cons_of_isSeparator {c : Char} (h : isSeparator c = true) (s : List Char) :
    solid (c :: s) = solid s := List.filter_cons_of_neg (by simp [h])

theorem IsPlain.solid (h : t.IsPlain) : solid t.text.toList = t.text.toList :=
  List.filter_eq_self.2 fun c hc => by rw [h.isSeparator c hc]; rfl

theorem exists_of_tokensFrom_cons (h : tokensFrom start s = .ok (t :: tokens)) :
    ∃ blanks rest, s = blanks ++ (t.text.toList ++ rest) ∧ (∀ c ∈ blanks, isSeparator c = true) ∧
      t.start = start + blanks.length ∧
      tokensFrom (t.start + t.text.toList.length) rest = .ok tokens := by
  fun_induction tokensFrom start s generalizing t tokens with
  | case1 => cases h
  | case2 start c rest hseparator ih =>
    obtain ⟨blanks, rest, rfl, hblanks, hstart, hrest⟩ := ih h
    refine ⟨c :: blanks, rest, rfl, List.forall_mem_cons.2 ⟨hseparator, hblanks⟩, ?_, hrest⟩
    rw [hstart, List.length_cons]
    omega
  | case3 => cases h
  | case4 => cases h
  | case5 start c rest hseparator kind more hlexeme others hothers ih =>
    cases h
    have hle := le_of_lexeme? hlexeme
    refine ⟨[], rest.drop more, ?_, fun c hc => absurd hc List.not_mem_nil, rfl, ?_⟩
    · rw [String.toList_ofList, List.nil_append, List.cons_append, List.take_append_drop]
    · rw [String.toList_ofList, List.length_cons, List.length_take_of_le hle, Nat.add_comm more,
        ← Nat.add_assoc]
      exact hothers

theorem solid_of_isSeparator (h : ∀ c ∈ s, isSeparator c = true) : solid s = [] :=
  List.filter_eq_nil_iff.2 fun c hc => by simp [h c hc]

/-- The tokens spell the text, but for the separators in it. -/
theorem solid_eq_spelled (h : tokensFrom start s = .ok tokens) (hplain : ∀ t ∈ tokens, t.IsPlain) :
    solid s = spelled tokens := by
  induction tokens generalizing start s with
  | nil =>
    fun_induction tokensFrom start s with
    | case1 => rfl
    | case2 start c rest hseparator ih => rw [solid_cons_of_isSeparator hseparator, ih h]
    | case3 => cases h
    | case4 => cases h
    | case5 => cases h
  | cons t tokens ih =>
    obtain ⟨ht, htokens⟩ := List.forall_mem_cons.1 hplain
    obtain ⟨blanks, rest, rfl, hblanks, -, hrest⟩ := exists_of_tokensFrom_cons h
    rw [solid_append, solid_of_isSeparator hblanks, solid_append, ht.solid, ih hrest htokens]
    rfl

theorem exists_of_tokensFrom_append {before after : List Token}
    (h : tokensFrom start s = .ok (before ++ t :: after))
    (hplain : ∀ u ∈ before ++ t :: after, u.IsPlain) :
    ∃ a b, s = a ++ (t.text.toList ++ b) ∧ t.start = start + a.length ∧
      solid a = spelled before ∧ solid b = spelled after := by
  induction before generalizing start s with
  | nil =>
    obtain ⟨blanks, rest, rfl, hblanks, hstart, hrest⟩ := exists_of_tokensFrom_cons h
    exact ⟨blanks, rest, rfl, hstart, solid_of_isSeparator hblanks,
      solid_eq_spelled hrest (List.forall_mem_cons.1 hplain).2⟩
  | cons u before ih =>
    obtain ⟨hu, hothers⟩ := List.forall_mem_cons.1 hplain
    obtain ⟨blanks, rest, rfl, hblanks, hstart, hrest⟩ := exists_of_tokensFrom_cons h
    obtain ⟨a, b, rfl, hplace, ha, hb⟩ := ih hrest hothers
    refine ⟨blanks ++ (u.text.toList ++ a), b, by simp only [List.append_assoc], ?_, ?_, hb⟩
    · rw [hplace, hstart, List.length_append, List.length_append]
      omega
    · rw [solid_append, solid_of_isSeparator hblanks, solid_append, hu.solid, ha]
      rfl

theorem openAfter?_solid (depth : Nat) (s : List Char) :
    openAfter? depth (solid s) = openAfter? depth s := by
  induction s generalizing depth with
  | nil => rfl
  | cons c rest ih =>
    by_cases hseparator : isSeparator c = true
    · obtain ⟨-, hopen, hclose⟩ := isPlain_of_isSeparator hseparator
      rw [solid_cons_of_isSeparator hseparator, ih, openAfter?_of_ne hopen hclose]
    · have hsolid : solid (c :: rest) = c :: solid rest :=
        List.filter_cons_of_pos (by simpa using hseparator)
      simp only [hsolid, openAfter?, ih]

/-- The braces are tokens of their own. -/
def isBrace (t : Token) : Bool := t.kind = .openBrace || t.kind = .closeBrace

theorem IsPlain.cases_brace (h : t.IsPlain) : t = ⟨.openBrace, "\x7b", t.start⟩ ∨
    t = ⟨.closeBrace, "\x7d", t.start⟩ ∨ t.isBrace = false := by
  cases h with
  | openBrace => exact .inl rfl
  | closeBrace => exact .inr (.inl rfl)
  | letter | number | other => exact .inr (.inr rfl)

theorem IsPlain.forall_ne (h : t.IsPlain) (hbrace : t.isBrace = false) :
    ∀ c ∈ t.text.toList, c ≠ '\x7b' ∧ c ≠ '\x7d' := by
  cases h with
  | openBrace | closeBrace => cases hbrace
  | letter start alpha => simpa using (isPlain_of_isAlpha alpha).2
  | number start hne h =>
    rw [String.toList_ofList]
    intro c hc
    rcases h c hc with hdigit | rfl
    · exact (isPlain_of_isDigit hdigit).2
    · decide
  | @other c start special _ _ blank =>
    simp only [List.mem_cons, List.not_mem_nil, or_false, not_or] at special
    simpa using ⟨special.2.1, special.2.2.1⟩

/-! ### What the tokens stand for -/

/-- The operator that a sign is by itself. -/
def operator (d : Dialect) (text : String) : Formula :=
  if d.vocabulary.find? .character text = some .bar then Reader.plainBar text
  else
    let texClass := Vocabulary.operatorClass text
    .token "mo" text
      (if texClass = .opening || texClass = .closing then [("stretchy", .truth false)] else [])
      (some texClass)

/-- The leaf that a token is which is no brace. -/
def leaf (d : Dialect) (t : Token) : Formula :=
  match t.kind with
  | .letter => .token "mi" t.text [] none
  | .number => .token "mn" t.text [] none
  | _ => operator d t.text

theorem leaf_eq_token (d : Dialect) (t : Token) : ∃ kind attributes texClass,
    kind ∈ (["mi", "mn", "mo"] : List Value) ∧
      t.leaf d = .token kind t.text attributes texClass := by
  have hoperator : ∃ attributes texClass,
      operator d t.text = .token "mo" t.text attributes texClass := by
    rw [operator]
    split <;> exact ⟨_, _, rfl⟩
  obtain ⟨attributes, texClass, hoperator⟩ := hoperator
  rw [leaf]
  split
  · exact ⟨_, _, _, by decide, rfl⟩
  · exact ⟨_, _, _, by decide, rfl⟩
  · exact ⟨_, _, _, by decide, hoperator⟩

theorem leaf_isSolid (d : Dialect) (t : Token) : (t.leaf d).IsSolid := by
  obtain ⟨kind, attributes, texClass, -, hleaf⟩ := t.leaf_eq_token d
  rw [hleaf, Formula.IsSolid]
  exact Bool.and_false _

/-- The formulas that tokens without commands stand for: a group is an atom around what is in it,
and any other token a leaf. -/
inductive Transcript (d : Dialect) : List Token → List Formula → Prop
  | empty : Transcript d [] []
  | leaf {t : Token} {tokens : List Token} {fs : List Formula} (single : t.isBrace = false)
      (rest : Transcript d tokens fs) : Transcript d (t :: tokens) (t.leaf d :: fs)
  | group {inner tokens : List Token} {contents fs : List Formula} (start stop : Nat)
      (inside : Transcript d inner contents) (rest : Transcript d tokens fs) :
      Transcript d (⟨.openBrace, "\x7b", start⟩ :: inner ++ ⟨.closeBrace, "\x7d", stop⟩ :: tokens)
        ({ kind := "TeXAtom", children := contents, texClass := some .ord } :: fs)

/-- What tokens without commands leave open, innermost first: the group, the formulas in it, and the
frames of those around it. -/
inductive Suspends (d : Dialect) : List Token → Holder → List Formula → Stack → Prop
  | whole {tokens : List Token} {fs : List Formula} (inside : Transcript d tokens fs) :
      Suspends d tokens none fs []
  | opened {before tokens : List Token} {holder : Holder} {contents fs : List Formula} {below : Stack}
      (start : Nat) (around : Suspends d before holder contents below)
      (inside : Transcript d tokens fs) :
      Suspends d (before ++ ⟨.openBrace, "\x7b", start⟩ :: tokens)
        (some (.group, some (start : Int))) fs (holder.frame contents :: below)

section

variable {d : Dialect} {fs gs : List Formula} {others : List Token} {holder : Holder}
  {contents : List Formula} {below : Stack}

theorem Transcript.append (h : Transcript d tokens fs) (h' : Transcript d others gs) :
    Transcript d (tokens ++ others) (fs ++ gs) := by
  induction h with
  | empty => exact h'
  | leaf single _ ih => exact .leaf single ih
  | group start stop inside _ _ ih =>
    rw [List.append_assoc, List.cons_append]
    exact .group start stop inside ih

theorem Transcript.isSolid (h : Transcript d tokens fs) : ∀ f ∈ fs, f.IsSolid := by
  induction h with
  | empty => exact List.forall_mem_nil _
  | @leaf t _ _ _ _ ih => exact List.forall_mem_cons.2 ⟨leaf_isSolid d t, ih⟩
  | group _ _ _ _ _ ih => exact List.forall_mem_cons.2 ⟨rfl, ih⟩

/-- What stands for itself is read in what is open. -/
theorem Suspends.append (h : Suspends d tokens holder contents below) (h' : Transcript d others gs) :
    Suspends d (tokens ++ others) holder (contents ++ gs) below := by
  cases h with
  | whole inside => exact .whole (inside.append h')
  | opened start around inside =>
    rw [List.append_assoc, List.cons_append]
    exact .opened start around (inside.append h')

/-- What stands for itself leaves the braces as they were. -/
theorem Transcript.openAfter?_spelled (h : Transcript d tokens fs) (hplain : ∀ t ∈ tokens, t.IsPlain)
    (depth : Nat) (rest : List Char) :
    openAfter? depth (spelled tokens ++ rest) = openAfter? depth rest := by
  induction h generalizing depth rest with
  | empty => rfl
  | leaf single _ ih =>
    obtain ⟨ht, hothers⟩ := List.forall_mem_cons.1 hplain
    rw [spelled, List.flatMap_cons, List.append_assoc,
      openAfter?_append_of_ne (ht.forall_ne single)]
    exact ih hothers depth rest
  | @group inner tokens _ _ start stop _ _ ihInside ihRest =>
    obtain ⟨hinner, htokens⟩ := List.forall_mem_append.1 hplain
    have hspelled : spelled (⟨.openBrace, "\x7b", start⟩ :: inner ++
        ⟨.closeBrace, "\x7d", stop⟩ :: tokens) ++ rest =
          '\x7b' :: (spelled inner ++ '\x7d' :: (spelled tokens ++ rest)) := by
      simp [spelled]
    rw [hspelled, openAfter?_open, ihInside (List.forall_mem_cons.1 hinner).2, openAfter?_close,
      ihRest (List.forall_mem_cons.1 htokens).2]

/-- As many braces are open as there are groups around. -/
theorem Suspends.openAfter?_spelled (h : Suspends d tokens holder contents below)
    (hplain : ∀ t ∈ tokens, t.IsPlain) : openAfter? 0 (spelled tokens) = some below.length := by
  suffices ∀ rest, openAfter? 0 (spelled tokens ++ rest) = openAfter? below.length rest by
    simpa [openAfter?] using this []
  induction h with
  | whole inside => exact inside.openAfter?_spelled hplain 0
  | @opened before tokens _ _ _ _ start _ inside ih =>
    obtain ⟨hbefore, htokens⟩ := List.forall_mem_append.1 hplain
    intro rest
    have hspelled : spelled (before ++ ⟨.openBrace, "\x7b", start⟩ :: tokens) ++ rest =
        spelled before ++ '\x7b' :: (spelled tokens ++ rest) := by
      simp [spelled]
    rw [hspelled, ih hbefore, openAfter?_open,
      inside.openAfter?_spelled (List.forall_mem_cons.1 htokens).2, List.length_cons]

end

end Token

/-! ### Reading leaves and groups -/

theorem Frame.check_usual {kinds : FrameKinds} (hk : kinds.IsUsual) (frame item : Frame) :
    frame.check kinds item = frame.check .withBraket item := by
  have hfinish (frame : Frame) : frame.finish kinds = frame.finish .withBraket := by
    have hbraket : FrameKinds.IsUsual .withBraket := .inr rfl
    simp only [finish, wrap_eq hk, wrap_eq hbraket]
  simp only [check, hfinish]

/-- Whether bra-kets are known makes no difference for what is pushed. -/
theorem Stack.push_usual {kinds : FrameKinds} (hk : kinds.IsUsual) (stack : Stack) (item : Frame) :
    stack.push kinds item = stack.push .withBraket item := by
  induction stack generalizing item with
  | nil => rfl
  | cons top below ih => simp only [push, Frame.check_usual hk, ih]

namespace Reader

variable {d : Dialect} {t : Token} {holder : Holder} {contents : List Formula} {below : Stack}
  {rest : List Token} {n : Nat}

theorem pushNode_holder (hk : d.kinds.IsUsual) (f : Formula) :
    pushNode d ⟨holder.frame contents :: below, rest, n⟩ f =
      .ok ⟨holder.frame (contents ++ [f]) :: below, rest, n⟩ := by
  have hwrap : d.kinds.wrap (some f) = .ok (Frame.finished f) := Frame.wrap_eq hk _
  rw [pushNode, hwrap]
  dsimp only [bind, Except.bind]
  rw [Stack.push_usual hk, Stack.push_finished]
  rfl

theorem step_of_find? {r : Reader} (hcommand : t.isCommand = false) {action : Action}
    (hfind : d.vocabulary.find? .character t.text = some action) :
    step d t r = r.perform d t action := by
  rw [step, meaning, hcommand, if_neg Bool.false_ne_true, hfind]
  rfl

theorem step_of_find?_eq_none {r : Reader} (hcommand : t.isCommand = false)
    (hfind : d.vocabulary.find? .character t.text = none) :
    step d t r = r.perform d t (match t.kind with
      | .letter => .identifier
      | .number => .number
      | .parameter => .illegalParameter
      | _ => .other) := by
  rw [step, meaning, hcommand, if_neg Bool.false_ne_true, hfind]
  rfl

/-- No character but a bar has a meaning other than that of its kind, braces and the sign of
parameters apart. -/
theorem find?_character (hd : d = .base ∨ d = .usual) {s : List Char}
    (hs : s ∉ [['\x7b'], ['\x7d'], ['#']]) :
    d.vocabulary.find? .character (String.ofList s) = none ∨
      s = ['|'] ∧ d.vocabulary.find? .character (String.ofList s) = some .bar := by
  have hentries : ∀ lexicon ∈ d.vocabulary, lexicon.category = .character →
      ∀ entry ∈ lexicon.entries, entry.1.toList ∈ [['\x7b'], ['\x7d'], ['#']] ∨
        entry.1.toList = ['|'] ∧ entry.2 = .bar := by
    rcases hd with rfl | rfl <;> decide
  cases hfind : d.vocabulary.find? .character (String.ofList s) with
  | none => exact .inl rfl
  | some action =>
    obtain ⟨lexicon, hlexicon, hcategory, hentry⟩ := Vocabulary.mem_of_find? hfind
    have hmark := hentries lexicon hlexicon hcategory _ hentry
    rw [String.toList_ofList] at hmark
    rcases hmark with hmem | ⟨hbar, rfl⟩
    · exact absurd hmem hs
    · exact .inr ⟨hbar, rfl⟩

theorem find?_character_eq_none (hd : d = .base ∨ d = .usual) {s : List Char} (hne : s ≠ [])
    (hs : ∀ c ∈ s, c ∉ ['\x7b', '\x7d', '#', '|']) :
    d.vocabulary.find? .character (String.ofList s) = none := by
  obtain ⟨c, others, rfl⟩ := List.exists_cons_of_ne_nil hne
  have hc := hs c (List.mem_cons_self ..)
  simp only [List.mem_cons, List.not_mem_nil, or_false, not_or] at hc
  have hmark : c :: others ∉ [['\x7b'], ['\x7d'], ['#']] := by simp [hc]
  rcases find?_character hd hmark with hnone | ⟨hbar, -⟩
  · exact hnone
  · exact absurd (List.cons.inj hbar).1 hc.2.2.2

theorem isUsual_kinds (hd : d = .base ∨ d = .usual) : d.kinds.IsUsual := by
  rcases hd with rfl | rfl
  · exact .inl rfl
  · exact .inr rfl

theorem step_leaf (hd : d = .base ∨ d = .usual) (ht : t.IsPlain) (single : t.isBrace = false)
    {tokens : List Token} (h : Token.Suspends d tokens holder contents below) :
    step d t ⟨holder.frame contents :: below, rest, n⟩ =
      .ok ⟨holder.frame (contents ++ [t.leaf d]) :: below, rest, n⟩ := by
  have hk := isUsual_kinds hd
  have hmarks {p : Char → Prop} (hp : ∀ m ∈ ['\x7b', '\x7d', '#', '|'], ¬p m) {s : List Char}
      (hs : ∀ c ∈ s, p c) : ∀ c ∈ s, c ∉ ['\x7b', '\x7d', '#', '|'] :=
    fun c hc hmem => hp c hmem (hs c hc)
  cases ht with
  | openBrace | closeBrace => cases single
  | @letter c start alpha =>
    have hs := hmarks (p := fun c => c.isAlpha = true) (by simp) (List.forall_mem_singleton.2 alpha)
    rw [step_of_find?_eq_none rfl (find?_character_eq_none hd (List.cons_ne_nil c []) hs)]
    exact pushNode_holder hk _
  | @number s start hne hdigits =>
    have hs := hmarks (p := fun c => c.isDigit = true ∨ c = '.') (by simp) hdigits
    rw [step_of_find?_eq_none rfl (find?_character_eq_none hd hne hs)]
    exact pushNode_holder hk _
  | @other c start special _ _ blank =>
    simp only [List.mem_cons, List.not_mem_nil, or_false, not_or] at special
    have hmark : [c] ∉ [['\x7b'], ['\x7d'], ['#']] := by simp [special]
    rcases find?_character hd hmark with hnone | ⟨hbar, hfound⟩
    · have hleaf : Token.operator d (String.ofList [c]) = _ :=
        if_neg fun hsome => Option.some_ne_none _ (hsome.symm.trans hnone)
      rw [step_of_find?_eq_none rfl hnone]
      exact (congrArg (pushNode d _) hleaf.symm).trans (pushNode_holder hk _)
    · obtain rfl : c = '|' := (List.cons.inj hbar).1
      have hleaf : Token.operator d (String.ofList ['|']) = plainBar "|" := if_pos hfound
      have hkind : (holder.frame contents).isKind "braket" = false := by
        cases h <;> rfl
      rw [step_of_find? rfl hfound, perform, bar]
      simp only [hkind, Bool.false_eq_true, if_false]
      exact (congrArg (pushNode d _) hleaf.symm).trans (pushNode_holder hk _)

theorem step_openBrace (hd : d = .base ∨ d = .usual) (start : Nat) :
    step d ⟨.openBrace, "\x7b", start⟩ ⟨holder.frame contents :: below, rest, n⟩ =
      .ok ⟨Holder.frame (some (.group, some (start : Int))) [] :: holder.frame contents :: below,
        rest, n⟩ := by
  have hfind : d.vocabulary.find? .character "\x7b" = some .openGroup := by
    rcases hd with rfl | rfl <;> rfl
  have hcreate : d.kinds.create "open" [] =
      .ok { kind := Opener.group.kind, properties := Opener.group.properties,
            openedWith := Opener.group.properties } := by
    rcases hd with rfl | rfl <;> rfl
  have hpush := Stack.push_opening holder contents below .group (some (start : Int))
  rw [step_of_find? rfl hfind, perform, pushNew, hcreate]
  dsimp only [bind, Except.bind]
  rw [pushItem, Stack.push_usual (isUsual_kinds hd)]
  dsimp only [Option.getD_none]
  rw [Letter.item] at hpush
  rw [hpush]
  rfl

theorem create_close (hd : d = .base ∨ d = .usual) (properties : Fields Value) :
    d.kinds.create "close" properties =
      .ok { kind := Ender.group.kind, properties, openedWith := properties } := by
  rcases hd with rfl | rfl <;> rfl

theorem find?_closeBrace (hd : d = .base ∨ d = .usual) :
    d.vocabulary.find? .character "\x7d" = some .closeGroup := by
  rcases hd with rfl | rfl <;> rfl

theorem step_closeBrace (hd : d = .base ∨ d = .usual) {inside : List Formula}
    (hsolid : ∀ f ∈ inside, f.IsSolid) (opened : Option Int) (start : Nat) :
    step d ⟨.closeBrace, "\x7d", start⟩
        ⟨Holder.frame (some (.group, opened)) inside :: holder.frame contents :: below, rest, n⟩ =
      .ok ⟨holder.frame (contents ++ [Opener.group.built .group inside]) :: below, rest, n⟩ := by
  have hends : Opener.group.endsWith .group = true := rfl
  rw [step_of_find? rfl (find?_closeBrace hd), perform, pushNew, create_close hd]
  dsimp only [bind, Except.bind]
  rw [pushItem, Stack.push_usual (isUsual_kinds hd), Stack.push_ended hends opened hsolid rfl rfl,
    Stack.push_finished]
  rfl

/-- What is said of a brace that closes nothing. -/
def unopened (text : String) : TexCause :=
  .unexpectedClose "start" (.text text) (some "Extra close brace or missing open brace")

theorem step_unopened (hd : d = .base ∨ d = .usual) (start : Nat) :
    step d ⟨.closeBrace, "\x7d", start⟩ ⟨Holder.frame none contents :: below, rest, n⟩ =
      .error (.ofCause (unopened "\x7d")) := by
  rw [step_of_find? rfl (find?_closeBrace hd), perform, pushNew, create_close hd]
  dsimp only [bind, Except.bind]
  rw [pushItem, Stack.push_usual (isUsual_kinds hd)]
  rfl

/-! ### Reading to the end -/

open Token

/-- What becomes of a reader of some tokens: it holds what they leave open, or stops at the first
brace that closes nothing. -/
inductive Transcribes (d : Dialect) (tokens : List Token) (n : Nat) : Except Failure Reader → Prop
  | suspends {holder : Holder} {contents : List Formula} {below : Stack}
      (h : Suspends d tokens holder contents below) :
      Transcribes d tokens n (.ok ⟨holder.frame contents :: below, [], n⟩)
  | stops {before after : List Token} {fs : List Formula} (start : Nat)
      (split : tokens = before ++ ⟨.closeBrace, "\x7d", start⟩ :: after)
      (h : Transcript d before fs) :
      Transcribes d tokens n (.error (.tex ⟨unopened "\x7d", some (start : Int)⟩))

/-- Tokens without commands are taken for what they stand for. -/
theorem run_plain (hd : d = .base ∨ d = .usual) {done : List Token}
    (h : Suspends d done holder contents below) (hplain : ∀ t ∈ rest, t.IsPlain) :
    Transcribes d (done ++ rest) n (run d ⟨holder.frame contents :: below, rest, n⟩) := by
  induction rest generalizing done holder contents below with
  | nil =>
    rw [run.eq_1, List.append_nil]
    exact .suspends h
  | cons t rest ih =>
    obtain ⟨ht, hrest⟩ := List.forall_mem_cons.1 hplain
    -- one token more has been read
    have hlater {holder' : Holder} {contents' : List Formula} {below' : Stack}
        (hstep : step d t ⟨holder.frame contents :: below, rest, n⟩ =
          .ok ⟨holder'.frame contents' :: below', rest, n⟩)
        (h' : Suspends d (done ++ [t]) holder' contents' below') :
        Transcribes d (done ++ t :: rest) n
          (run d ⟨holder.frame contents :: below, t :: rest, n⟩) := by
      have hsplit : done ++ t :: rest = done ++ [t] ++ rest := by simp
      rw [hsplit, run_of_step hstep]
      exact ih h' hrest
    rcases ht.cases_brace with hopen | hclose | hleaf
    · rw [hopen] at hlater ⊢
      exact hlater (step_openBrace hd t.start) (.opened t.start h .empty)
    · rw [hclose] at hlater ⊢
      cases h with
      | whole inside =>
        have hrefused : run d ⟨[Holder.frame none contents],
            ⟨.closeBrace, "\x7d", t.start⟩ :: rest, n⟩ =
              .error (.tex ⟨unopened "\x7d", some (t.start : Int)⟩) := by
          rw [run_cons, step_unopened hd]
          rfl
        rw [hrefused]
        exact .stops t.start rfl inside
      | opened start around inside =>
        refine hlater (step_closeBrace hd inside.isSolid (some start) t.start) ?_
        have hclosed := around.append (.group start t.start inside .empty)
        simpa [Opener.built] using hclosed
    · exact hlater (step_leaf hd ht hleaf h) (h.append (.leaf hleaf .empty))

theorem close_whole (hd : d = .base ∨ d = .usual) (hsolid : ∀ f ∈ contents, f.IsSolid)
    (length : Nat) :
    close d length ⟨[Holder.frame none contents], rest, n⟩ =
      .ok ⟨[Frame.finished (Formula.whole contents)], rest, n⟩ := by
  rw [close_eq (isUsual_kinds hd), Stack.push_usual (isUsual_kinds hd),
    Stack.push_endOfText_none _ hsolid]
  rfl

theorem close_opened (hd : d = .base ∨ d = .usual) (opener : Opener) (start : Int) (length : Nat) :
    close d length ⟨Holder.frame (some (opener, some start)) contents :: below, rest, n⟩ =
      .error (.tex (Holder.unterminated opener (some start))) := by
  rw [close_eq (isUsual_kinds hd), Stack.push_usual (isUsual_kinds hd), Stack.push_endOfText_some]
  rfl

end Reader

/-! ### Leaves -/

namespace Formula

mutual

/-- The tokens of a formula in their order. -/
def leaves : Formula → List Formula
  | ⟨kind, children, attributes, text, texClass, inferred⟩ =>
    if kind ∈ tokenKinds then [⟨kind, children, attributes, text, texClass, inferred⟩]
    else leavesAmong children

/-- The same for the formulas of a list. -/
def leavesAmong : List Formula → List Formula
  | [] => []
  | f :: rest => f.leaves ++ leavesAmong rest

end

/-- The text of a formula. -/
def spelling (f : Formula) : List Char := (f.text.text?.getD "").toList

theorem leaves_whole {fs : List Formula} : (Formula.whole fs).leaves = leavesAmong fs := by
  match fs with
  | [] => rfl
  | [f] => rw [leavesAmong, leavesAmong, List.append_nil, whole]
  | f :: g :: rest => rfl

end Formula

namespace Token

variable {tokens : List Token}

theorem leaves_leaf (d : Dialect) (t : Token) : (t.leaf d).leaves = [t.leaf d] := by
  obtain ⟨kind, attributes, texClass, hkind, hleaf⟩ := t.leaf_eq_token d
  have htoken : kind ∈ Formula.tokenKinds :=
    (by decide : (["mi", "mn", "mo"] : List Value) ⊆ Formula.tokenKinds) hkind
  rw [hleaf, Formula.token, Formula.leaves, if_pos htoken]

theorem spelling_leaf (d : Dialect) (t : Token) : (t.leaf d).spelling = t.text.toList := by
  obtain ⟨kind, attributes, texClass, -, hleaf⟩ := t.leaf_eq_token d
  rw [hleaf]
  rfl

theorem Transcript.leaves {d : Dialect} {fs : List Formula}
    (h : Transcript d tokens fs) :
    Formula.leavesAmong fs = (tokens.filter fun t => !t.isBrace).map (Token.leaf d) := by
  induction h with
  | empty => rfl
  | @leaf t tokens _ single _ ih =>
    have hleaf : (t :: tokens).filter (fun t => !t.isBrace) =
        t :: tokens.filter fun t => !t.isBrace := List.filter_cons_of_pos (by simp [single])
    rw [Formula.leavesAmong, leaves_leaf, ih, hleaf]
    rfl
  | @group inner tokens contents _ start stop _ _ ihInside ihRest =>
    have hatom : Formula.leaves { kind := "TeXAtom", children := contents, texClass := some .ord } =
        Formula.leavesAmong contents := by
      rw [Formula.leaves, if_neg (by decide)]
    rw [Formula.leavesAmong, hatom, ihInside, ihRest]
    simp [isBrace]

/-- The leaves show what is spelled, but for the braces. -/
theorem spelling_leaves (d : Dialect) (hplain : ∀ t ∈ tokens, t.IsPlain) :
    ((tokens.filter fun t => !t.isBrace).map (Token.leaf d)).flatMap Formula.spelling =
      (spelled tokens).filter fun c => c ≠ '\x7b' && c ≠ '\x7d' := by
  induction tokens with
  | nil => rfl
  | cons t tokens ih =>
    obtain ⟨ht, htokens⟩ := List.forall_mem_cons.1 hplain
    have hspelled : spelled (t :: tokens) = t.text.toList ++ spelled tokens := rfl
    rw [hspelled, List.filter_append, ← ih htokens]
    rcases ht.cases_brace with hopen | hclose | hleaf
    · rw [hopen]
      simp [isBrace]
    · rw [hclose]
      simp [isBrace]
    · have hshown : t.text.toList.filter (fun c => c ≠ '\x7b' && c ≠ '\x7d') = t.text.toList :=
        List.filter_eq_self.2 fun c hc => by simpa using ht.forall_ne hleaf c hc
      rw [List.filter_cons_of_pos (by simp [hleaf]), List.map_cons, List.flatMap_cons,
        spelling_leaf, hshown]

end Token

/-! ### Whole texts -/

open Token

section

variable {d : Dialect} {text : String} {tokens : List Token}

/-- A text is a formula, or a brace in it closes nothing, or one is not closed. -/
theorem readTex_plain (hd : d = .base ∨ d = .usual) (limit : Int)
    (htokens : tokenize text = .ok tokens) (hplain : ∀ t ∈ tokens, t.IsPlain) :
    (∃ fs, Transcript d tokens fs ∧ openAfter? 0 text.toList = some 0 ∧
      readTex d limit text = .ok (some (Formula.whole fs))) ∨
    (∃ before after, text.toList = before ++ '\x7d' :: after ∧ openAfter? 0 before = some 0 ∧
      readTex d limit text =
        .error (.tex ⟨Reader.unopened "\x7d", some (before.length : Int)⟩)) ∨
    ∃ before after depth, text.toList = before ++ '\x7b' :: after ∧ openAfter? 0 after = some 0 ∧
      openAfter? 0 text.toList = some (depth + 1) ∧
      readTex d limit text =
        .error (.tex ⟨.unterminated "open" [], some (before.length : Int)⟩) := by
  have hinitial : Stack.initial d.kinds = .ok [Holder.frame none []] := by
    rcases hd with rfl | rfl <;> rfl
  have hread : readTex d limit text =
      (Reader.run d ⟨[Holder.frame none []], tokens, limit.toNat⟩ >>= fun r =>
        r.close d text.length >>= Reader.outcome) := by
    rw [readTex, htokens, hinitial]
    rfl
  have hrun := Reader.run_plain (n := limit.toNat) hd (.whole .empty) hplain
  rw [List.nil_append] at hrun
  rw [hread]
  generalize Reader.run d ⟨[Holder.frame none []], tokens, limit.toNat⟩ = outcome at hrun
  have hdepth : openAfter? 0 (spelled tokens) = openAfter? 0 text.toList := by
    rw [← solid_eq_spelled htokens hplain, openAfter?_solid]
  cases hrun with
  | suspends h =>
    have hopen := h.openAfter?_spelled hplain
    rw [hdepth] at hopen
    cases h with
    | whole inside =>
      refine .inl ⟨_, inside, hopen, ?_⟩
      dsimp only [bind, Except.bind]
      rw [Reader.close_whole hd inside.isSolid]
      rfl
    | opened start around inside =>
      obtain ⟨before, after, htext, hstart, -, hafter⟩ := exists_of_tokensFrom_append htokens hplain
      have hothers := (List.forall_mem_cons.1 (List.forall_mem_append.1 hplain).2).2
      have hbalanced := inside.openAfter?_spelled hothers 0 []
      rw [List.append_nil, ← hafter, openAfter?_solid] at hbalanced
      rw [Nat.zero_add] at hstart
      refine .inr (.inr ⟨before, after, _, htext.trans (by simp), hbalanced, hopen, ?_⟩)
      dsimp only [bind, Except.bind]
      rw [Reader.close_opened hd, ← hstart]
      rfl
  | stops start split inside =>
    subst split
    obtain ⟨before, after, htext, hstart, hbefore, -⟩ := exists_of_tokensFrom_append htokens hplain
    have hbalanced := inside.openAfter?_spelled (List.forall_mem_append.1 hplain).1 0 []
    rw [List.append_nil, ← hbefore, openAfter?_solid] at hbalanced
    rw [Nat.zero_add] at hstart
    refine .inr (.inl ⟨before, after, htext.trans (by simp), hbalanced, ?_⟩)
    rw [← hstart]
    rfl

/-- A text that tokenizes and has no backslash and no sign of parameters in it is read just if its
braces are balanced, and for what its tokens stand for: the leaves in their order spell the text but
for separators and braces, and the groups are atoms.  Otherwise the error stands at the first brace
that closes nothing, or, if there is none, at the last one that is not closed. -/
theorem readTex_transcript (hd : d = .base ∨ d = .usual) (limit : Int)
    (htokens : tokenize text = .ok tokens) (hplain : ∀ c ∈ text.toList, c ≠ '\\' ∧ c ≠ '#') :
    ((∃ f, readTex d limit text = .ok f) ↔ IsBalanced text.toList) ∧
    (IsBalanced text.toList → ∃ fs,
      readTex d limit text = .ok (some (Formula.whole fs)) ∧
      Transcript d tokens fs ∧ (∀ t ∈ tokens, t.IsPlain) ∧
      (Formula.whole fs).leaves = (tokens.filter fun t => !t.isBrace).map (leaf d) ∧
      (Formula.whole fs).leaves.flatMap Formula.spelling =
        text.toList.filter fun c => !isSeparator c && (c ≠ '\x7b' && c ≠ '\x7d')) ∧
    ((∃ p, surplus (text.toList.take p) < 0) → ∃ before after,
      text.toList = before ++ '\x7d' :: after ∧ IsBalanced before ∧
      readTex d limit text = .error (.tex ⟨.unexpectedClose "start" "\x7d"
        (some "Extra close brace or missing open brace"), some (before.length : Int)⟩)) ∧
    ((∀ p, 0 ≤ surplus (text.toList.take p)) → ¬IsBalanced text.toList → ∃ before after,
      text.toList = before ++ '\x7b' :: after ∧ IsBalanced after ∧
      readTex d limit text = .error (.tex ⟨.unterminated "open" [], some (before.length : Int)⟩)) := by
  have hplain := tokensFrom_isPlain htokens hplain
  rcases readTex_plain hd limit htokens hplain with ⟨fs, hfs, hopen, hread⟩ |
    ⟨before, after, htext, hopen, hread⟩ | ⟨before, after, depth, htext, hafter, hopen, hread⟩
  · have hbalanced := isBalanced_of_openAfter? hopen
    have hleaves : (Formula.whole fs).leaves = _ := Formula.leaves_whole.trans hfs.leaves
    refine ⟨⟨fun _ => hbalanced, fun _ => ⟨_, hread⟩⟩,
      fun _ => ⟨fs, hread, hfs, hplain, hleaves, ?_⟩, fun ⟨p, hp⟩ => ?_,
      fun _ hnot => absurd hbalanced hnot⟩
    · rw [hleaves, spelling_leaves d hplain, ← solid_eq_spelled htokens hplain, solid,
        List.filter_filter]
      refine List.filter_congr fun c _ => Bool.and_comm ..
    · exact absurd (hbalanced.nonneg p) (Int.not_le.2 hp)
  · have hbefore := isBalanced_of_openAfter? hopen
    have hclosed : surplus (text.toList.take (before.length + 1)) < 0 := by
      rw [htext, List.take_length_add_append, surplus_append, hbefore.2]
      exact (by decide : 0 + surplus ['\x7d'] < 0)
    have hnot : ¬IsBalanced text.toList := fun h =>
      absurd (h.nonneg (before.length + 1)) (Int.not_le.2 hclosed)
    refine ⟨⟨fun ⟨f, hf⟩ => ?_, fun h => absurd h hnot⟩, fun h => absurd h hnot,
      fun _ => ⟨before, after, htext, hbefore, hread⟩, fun hnonneg => ?_⟩
    · rw [hread] at hf
      cases hf
    · exact absurd (hnonneg (before.length + 1)) (Int.not_le.2 hclosed)
  · obtain ⟨hleft, hnonneg⟩ := surplus_of_openAfter? hopen
    have hnot : ¬IsBalanced text.toList := fun h => by
      have hclosed := h.2
      push_cast at hleft
      omega
    refine ⟨⟨fun ⟨f, hf⟩ => ?_, fun h => absurd h hnot⟩, fun h => absurd h hnot, fun ⟨p, hp⟩ => ?_,
      fun _ _ => ⟨before, after, htext, isBalanced_of_openAfter? hafter, hread⟩⟩
    · rw [hread] at hf
      cases hf
    · have hp' := hnonneg p
      push_cast at hp'
      omega

/-- A text with a group in it. -/
theorem readTex_transcript_group :
    let text := "a\x7b1|\x7d"
    ∃ tokens, tokenize text = .ok tokens ∧ (∀ c ∈ text.toList, c ≠ '\\' ∧ c ≠ '#') ∧
      IsBalanced text.toList ∧ ∃ fs, readTex .usual 0 text = .ok (some (Formula.whole fs)) ∧
        Transcript .usual tokens fs := by
  intro text
  have htokens : tokenize text = .ok [⟨.letter, "a", 0⟩, ⟨.openBrace, "\x7b", 1⟩, ⟨.number, "1", 2⟩,
    ⟨.other, "|", 3⟩, ⟨.closeBrace, "\x7d", 4⟩] := by decide +kernel
  have hplain : ∀ c ∈ text.toList, c ≠ '\\' ∧ c ≠ '#' := by simp [text]
  have hbalanced : IsBalanced text.toList := by decide
  obtain ⟨fs, hread, hfs, -⟩ := (readTex_transcript (.inr rfl) 0 htokens hplain).2.1 hbalanced
  exact ⟨_, htokens, hplain, hbalanced, fs, hread, hfs⟩

end

end Formulary
