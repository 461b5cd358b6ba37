import Mathlib.Algebra.Ring.Parity
import Mathlib.Order.Bounds.Defs
import Formulary.Proofs.Tokens.Lexemes

/-! # The one way to cut a text into tokens

Tokens are a *decomposition* of a text (`Token.Decomposes`) if they are slices of it in order,
spelled after their kinds, with nothing but separators between them and none of them too short.

A text has at most one decomposition, the one that `tokenize` finds.  It has one unless a position
*offends* (`Token.Offends`): a blank that is no separator where no backslash takes it, or a
backslash at the end with nothing to take.  Which backslash takes something and which is taken
itself is told by counting: in a run of backslashes every other one is taken by the one before it
(`Token.backslashesBefore`).  All of this meets in `tokenize_decomposes`. -/

namespace Formulary

namespace Token

/-! ### Decompositions -/

/-- Where the token ends. -/
def stop (t : Token) : Nat := t.start + t.text.length

/-- The tokens are a decomposition of a text from an offset on. -/
structure Decomposes (text : List Char) (start : Nat) (tokens : List Token) : Prop where
  /-- The tokens stand in order and do not overlap. -/
  ordered : tokens.Pairwise fun t u => t.stop ≤ u.start
  within : ∀ t ∈ tokens, start ≤ t.start
  /-- A token is spelled as the text is where it stands. -/
  slices : ∀ t ∈ tokens, t.text.toList <+: text.drop t.start
  spelled : ∀ t ∈ tokens, t.kind.Spells t.text.toList
  maximal : ∀ t ∈ tokens, t.kind.EndsBefore t.text.toList (text.drop t.stop)
  /-- What is in no token separates tokens. -/
  gaps : ∀ p c, start ≤ p → text[p]? = some c → (∀ t ∈ tokens, p < t.start ∨ t.stop ≤ p) →
    isSeparator c = true

theorem isBlank_of_isSeparator {c : Char} (h : isSeparator c = true) : Text.isBlank c = true := by
  simp only [isSeparator, Bool.or_eq_true, decide_eq_true_eq] at h
  rcases h with (((rfl | rfl) | rfl) | rfl) | rfl <;> decide

section

variable {text : List Char} {start : Nat} {tokens : List Token}

theorem start_lt_of_slice {t : Token} (hslice : t.text.toList <+: text.drop t.start)
    (hspelled : t.kind.Spells t.text.toList) : t.start < text.length ∧ t.start < t.stop := by
  have hpos : 0 < t.text.toList.length := List.length_pos_iff.2 hspelled.ne_nil
  have hle := hslice.length_le
  rw [List.length_drop] at hle
  rw [String.length_toList] at hpos hle
  unfold stop
  omega

theorem decomposes_nil (h : text.drop start = []) : Decomposes text start tokens ↔ tokens = [] := by
  have hlength : text.length ≤ start := List.drop_eq_nil_iff.1 h
  constructor
  · intro hd
    cases tokens with
    | nil => rfl
    | cons t rest =>
      have hmem : t ∈ t :: rest := List.mem_cons_self ..
      have hlt := (start_lt_of_slice (hd.slices t hmem) (hd.spelled t hmem)).1
      have hle := hd.within t hmem
      omega
  · rintro rfl
    refine ⟨.nil, fun t ht => ?_, fun t ht => ?_, fun t ht => ?_, fun t ht => ?_, fun p c hp hc _ => ?_⟩
    all_goals try exact absurd ht List.not_mem_nil
    have hlt := (List.getElem?_eq_some_iff.1 hc).1
    omega

variable {c : Char} {rest : List Char}

theorem getElem?_of_drop (h : text.drop start = c :: rest) : text[start]? = some c := by
  have hzero := congrArg (fun s => s[0]?) h
  simpa [List.getElem?_drop] using hzero

theorem drop_of_drop (h : text.drop start = c :: rest) (n : Nat) :
    text.drop (start + 1 + n) = rest.drop n := by
  rw [Nat.add_assoc, ← List.drop_drop, h, Nat.add_comm 1, List.drop_succ_cons]

theorem decomposes_separator (h : text.drop start = c :: rest) (hc : isSeparator c = true) :
    Decomposes text start tokens ↔ Decomposes text (start + 1) tokens := by
  constructor
  · intro hd
    refine ⟨hd.ordered, fun t ht => ?_, hd.slices, hd.spelled, hd.maximal, fun p d hp => ?_⟩
    · refine Nat.lt_of_le_of_ne (hd.within t ht) fun heq => ?_
      have hslice := hd.slices t ht
      have hspelled := hd.spelled t ht
      rw [← heq, h] at hslice
      cases htext : t.text.toList with
      | nil => exact hspelled.ne_nil htext
      | cons d tail =>
        rw [htext] at hslice hspelled
        obtain ⟨rfl, -⟩ := List.cons_prefix_cons.1 hslice
        have hblank := hspelled.isBlank_head
        rw [isBlank_of_isSeparator hc] at hblank
        cases hblank
    · exact hd.gaps p d (Nat.le_of_succ_le hp)
  · intro hd
    refine ⟨hd.ordered, fun t ht => Nat.le_of_succ_le (hd.within t ht), hd.slices, hd.spelled,
      hd.maximal, fun p d hp hd' havoid => ?_⟩
    rcases Nat.eq_or_lt_of_le hp with rfl | hlt
    · rw [getElem?_of_drop h] at hd'
      exact Option.some.inj hd' ▸ hc
    · exact hd.gaps p d hlt hd' havoid

theorem Decomposes.cons {t : Token} (hslice : t.text.toList <+: text.drop t.start)
    (hspelled : t.kind.Spells t.text.toList)
    (hmaximal : t.kind.EndsBefore t.text.toList (text.drop t.stop))
    (hd : Decomposes text t.stop tokens) : Decomposes text t.start (t :: tokens) where
  ordered := List.pairwise_cons.2 ⟨hd.within, hd.ordered⟩
  within := by
    have hlt := (start_lt_of_slice hslice hspelled).2
    refine List.forall_mem_cons.2 ⟨Nat.le_refl _, fun u hu => ?_⟩
    exact Nat.le_trans (Nat.le_of_lt hlt) (hd.within u hu)
  slices := List.forall_mem_cons.2 ⟨hslice, hd.slices⟩
  spelled := List.forall_mem_cons.2 ⟨hspelled, hd.spelled⟩
  maximal := List.forall_mem_cons.2 ⟨hmaximal, hd.maximal⟩
  gaps := by
    intro p c hp hc havoid
    obtain ⟨ht, hothers⟩ := List.forall_mem_cons.1 havoid
    exact hd.gaps p c (ht.resolve_left (Nat.not_lt.2 hp)) hc hothers

theorem Decomposes.tail {t : Token} (hd : Decomposes text start (t :: tokens)) :
    Decomposes text t.stop tokens where
  ordered := (List.pairwise_cons.1 hd.ordered).2
  within := (List.pairwise_cons.1 hd.ordered).1
  slices := (List.forall_mem_cons.1 hd.slices).2
  spelled := (List.forall_mem_cons.1 hd.spelled).2
  maximal := (List.forall_mem_cons.1 hd.maximal).2
  gaps := by
    intro p c hp hc havoid
    have hwithin := hd.within t (List.mem_cons_self ..)
    have hlt := (start_lt_of_slice (hd.slices t (List.mem_cons_self ..))
      (hd.spelled t (List.mem_cons_self ..))).2
    exact hd.gaps p c (by omega) hc (List.forall_mem_cons.2 ⟨.inr hp, havoid⟩)

/-- The first token of a decomposition begins with the first character that is no separator. -/
theorem Decomposes.exists_cons (hd : Decomposes text start tokens)
    (h : text.drop start = c :: rest) (hc : isSeparator c = false) :
    ∃ t others, tokens = t :: others ∧ t.start = start := by
  have hcovered : ∃ t ∈ tokens, t.start ≤ start ∧ start < t.stop := by
    by_contra hnone
    have havoid : ∀ t ∈ tokens, start < t.start ∨ t.stop ≤ start := by
      intro t ht
      have hnot : ¬(t.start ≤ start ∧ start < t.stop) := fun hcover => hnone ⟨t, ht, hcover⟩
      omega
    have hgap := hd.gaps start c (Nat.le_refl _) (getElem?_of_drop h) havoid
    rw [hc] at hgap
    cases hgap
  obtain ⟨t, ht, hstart, -⟩ := hcovered
  cases tokens with
  | nil => cases ht
  | cons u others =>
    refine ⟨u, others, rfl, ?_⟩
    have hwithin := hd.within u (List.mem_cons_self ..)
    rcases List.mem_cons.1 ht with rfl | ht
    · omega
    · have hlt := (start_lt_of_slice (hd.slices u (List.mem_cons_self ..))
        (hd.spelled u (List.mem_cons_self ..))).2
      have hbefore := (List.pairwise_cons.1 hd.ordered).1 t ht
      omega

theorem decomposes_cons (h : text.drop start = c :: rest) (hc : isSeparator c = false) :
    Decomposes text start tokens ↔ ∃ kind more others,
      tokens = ⟨kind, String.ofList (c :: rest.take more), start⟩ :: others ∧
        Heads kind c rest more ∧ Decomposes text (start + 1 + more) others := by
  constructor
  · intro hd
    obtain ⟨⟨kind, spelling, start⟩, others, rfl, rfl⟩ := hd.exists_cons h hc
    have hslice := hd.slices _ (List.mem_cons_self ..)
    have hspelled := hd.spelled _ (List.mem_cons_self ..)
    have hmaximal := hd.maximal _ (List.mem_cons_self ..)
    have hothers := hd.tail
    simp only [h, stop] at hslice hspelled hmaximal hothers
    obtain ⟨after, hafter⟩ := hslice
    obtain ⟨tail, rfl⟩ : ∃ tail, spelling = String.ofList (c :: tail) := by
      cases hspelling : spelling.toList with
      | nil => exact absurd hspelling hspelled.ne_nil
      | cons d tail =>
        rw [hspelling] at hafter
        obtain ⟨rfl, -⟩ := List.cons.inj hafter
        exact ⟨tail, String.toList_inj.1 (by rw [hspelling, String.toList_ofList])⟩
    rw [String.toList_ofList] at hafter hspelled hmaximal
    obtain ⟨-, hrest⟩ := List.cons.inj hafter
    replace hrest : tail ++ after = rest := hrest
    subst hrest
    have hstop : start + (String.ofList (c :: tail)).length = start + 1 + tail.length := by
      rw [String.length_ofList, List.length_cons]
      omega
    rw [hstop, drop_of_drop h, List.drop_left] at hmaximal
    rw [hstop] at hothers
    exact ⟨kind, tail.length, others, by rw [List.take_left],
      ⟨tail, after, rfl, rfl, hspelled, hmaximal⟩, hothers⟩
  · rintro ⟨kind, more, others, rfl, ⟨tail, after, rfl, rfl, hspells, hends⟩, hd⟩
    rw [List.take_left]
    have hstop : stop ⟨kind, String.ofList (c :: tail), start⟩ = start + 1 + tail.length := by
      simp only [stop, String.length_ofList, List.length_cons]
      omega
    have hafter := drop_of_drop h tail.length
    rw [List.drop_left] at hafter
    refine Decomposes.cons (t := ⟨kind, String.ofList (c :: tail), start⟩) ?_ ?_ ?_ ?_
    · rw [h, String.toList_ofList, ← List.cons_append]
      exact List.prefix_append _ _
    · rwa [String.toList_ofList]
    · rwa [hstop, hafter, String.toList_ofList]
    · rwa [hstop]

/-- The tokens that are found are the only decomposition. -/
theorem tokensFrom_eq_ok_iff {s : List Char} (h : text.drop start = s) :
    tokensFrom start s = .ok tokens ↔ Decomposes text start tokens := by
  fun_induction tokensFrom start s generalizing tokens with
  | case1 start =>
    rw [decomposes_nil h, Except.ok.injEq, eq_comm]
  | case2 start c rest hseparator ih =>
    rw [decomposes_separator h hseparator]
    exact ih (drop_of_drop h 0)
  | case3 start c rest hseparator hlexeme =>
    rw [decomposes_cons h (Bool.eq_false_iff.2 hseparator)]
    refine ⟨fun heq => (by cases heq), ?_⟩
    rintro ⟨kind, more, others, -, hheads, -⟩
    rw [lexeme?_eq_some_iff.2 hheads] at hlexeme
    cases hlexeme
  | case4 start c rest hseparator kind more hlexeme e herror ih =>
    rw [decomposes_cons h (Bool.eq_false_iff.2 hseparator)]
    refine ⟨fun heq => (by cases heq), ?_⟩
    rintro ⟨kind', more', others, -, hheads, hd⟩
    rw [lexeme?_eq_some_iff.2 hheads] at hlexeme
    cases hlexeme
    have hok := (ih (drop_of_drop h more)).2 hd
    rw [herror] at hok
    cases hok
  | case5 start c rest hseparator kind more hlexeme others hothers ih =>
    have hd := (ih (drop_of_drop h more)).1 hothers
    rw [decomposes_cons h (Bool.eq_false_iff.2 hseparator)]
    constructor
    · intro heq
      cases heq
      exact ⟨kind, more, others, rfl, lexeme?_eq_some_iff.1 hlexeme, hd⟩
    · rintro ⟨kind', more', others', rfl, hheads, hd'⟩
      rw [lexeme?_eq_some_iff.2 hheads] at hlexeme
      cases hlexeme
      have hok := (ih (drop_of_drop h more)).2 hd'
      rw [hothers] at hok
      cases hok
      rfl

end

/-! ### What offends -/

/-- The length of the run of backslashes that ends just before an offset. -/
def backslashesBefore (text : List Char) (p : Nat) : Nat :=
  ((text.take p).reverse.takeWhile fun c => c = '\\').length

/-- A position that no token can take and that separates nothing. -/
inductive Offends (text : List Char) (p : Nat) : Prop
  /-- A blank that is neither a separator nor taken by a backslash. -/
  | blank {c : Char} (here : text[p]? = some c) (blank : Text.isBlank c = true)
      (stray : isSeparator c = false) (free : ¬Odd (backslashesBefore text p))
  /-- A last backslash that is not taken by one before it. -/
  | trailing (last : p + 1 = text.length) (odd : Odd (backslashesBefore text text.length))

section

variable {text : List Char} {start : Nat} {c : Char} {rest : List Char}

theorem backslashesBefore_succ {p : Nat} (h : text[p]? = some c) :
    backslashesBefore text (p + 1) = if c = '\\' then backslashesBefore text p + 1 else 0 := by
  unfold backslashesBefore
  rw [List.take_add_one, h, Option.toList_some, List.reverse_append, List.reverse_singleton,
    List.singleton_append]
  by_cases hc : c = '\\' <;> simp [hc]

theorem not_odd_backslashesBefore_zero (text : List Char) : ¬Odd (backslashesBefore text 0) := by
  simp [backslashesBefore]

/-- Nothing offends in a text just if its stray blanks are all taken and its last backslash is not
left over. -/
theorem forall_not_offends_iff (text : List Char) : (∀ p, ¬Offends text p) ↔
    (∀ p c, text[p]? = some c → Text.isBlank c = true → isSeparator c = false →
      Odd (backslashesBefore text p)) ∧ ¬Odd (backslashesBefore text text.length) := by
  constructor
  · intro h
    constructor
    · intro p c hc hblank hstray
      by_contra hfree
      exact h p (.blank hc hblank hstray hfree)
    · intro hodd
      cases hlength : text.length with
      | zero =>
        rw [hlength] at hodd
        exact not_odd_backslashesBefore_zero text hodd
      | succ p => exact h p (.trailing hlength.symm hodd)
  · rintro ⟨hblanks, hend⟩ p (⟨here, blank, stray, free⟩ | ⟨last, odd⟩)
    · exact free (hblanks p _ here blank stray)
    · exact hend odd

theorem not_offends_of_ne {p : Nat} (h : text[p]? = some c) (hc : c ≠ '\\')
    (hblank : Text.isBlank c = true → isSeparator c = false → Odd (backslashesBefore text p)) :
    ¬Offends text p := by
  rintro (⟨here, blank, stray, free⟩ | ⟨last, odd⟩)
  · obtain rfl := Option.some.inj (h.symm.trans here)
    exact free (hblank blank stray)
  · rw [← last, backslashesBefore_succ h, if_neg hc] at odd
    exact absurd odd (by decide)

theorem not_offends_backslash {p : Nat} (h : text[p]? = some '\\') (hlength : p + 1 < text.length) :
    ¬Offends text p := by
  rintro (⟨here, blank, -, -⟩ | ⟨last, -⟩)
  · obtain rfl := Option.some.inj (h.symm.trans here)
    exact absurd blank (by decide)
  · omega

theorem not_offends_run {run after : List Char} (h : text.drop start = run ++ after)
    (hne : run ≠ []) (hrun : ∀ d ∈ run, IsInert d) :
    (∀ p, start ≤ p → p < start + run.length → ¬Offends text p) ∧
      backslashesBefore text (start + run.length) = 0 := by
  induction run generalizing start with
  | nil => exact absurd rfl hne
  | cons d run ih =>
    obtain ⟨hd, hrun⟩ := List.forall_mem_cons.1 hrun
    have hhere := getElem?_of_drop h
    have hrest := drop_of_drop h 0
    have hfirst : ¬Offends text start := by
      refine not_offends_of_ne hhere hd.2 fun hblank => ?_
      rw [hd.1] at hblank
      cases hblank
    have hsucc : backslashesBefore text (start + 1) = 0 := by
      rw [backslashesBefore_succ hhere, if_neg hd.2]
    cases run with
    | nil =>
      refine ⟨fun p hle hlt => ?_, hsucc⟩
      obtain rfl : p = start := Nat.le_antisymm (Nat.le_of_lt_succ hlt) hle
      exact hfirst
    | cons e run =>
      obtain ⟨hothers, hlast⟩ := ih hrest (List.cons_ne_nil _ _) hrun
      rw [List.length_cons, Nat.add_comm _ 1, ← Nat.add_assoc]
      refine ⟨fun p hle hlt => ?_, hlast⟩
      rcases Nat.eq_or_lt_of_le hle with rfl | hle
      · exact hfirst
      · exact hothers p hle hlt

/-- A token at a place that no backslash takes holds nothing that offends, and no backslash in it
takes what follows it. -/
theorem Heads.not_offends {kind : TokenKind} {more : Nat} (hheads : Heads kind c rest more)
    (h : text.drop start = c :: rest) (heven : ¬Odd (backslashesBefore text start)) :
    (∀ p, start ≤ p → p < start + 1 + more → ¬Offends text p) ∧
      ¬Odd (backslashesBefore text (start + 1 + more)) := by
  obtain ⟨tail, after, rfl, rfl, hspells, -⟩ := hheads
  have hhere := getElem?_of_drop h
  rcases hspells.inert with ⟨d, heq⟩ | ⟨run, hne, hrun, rfl | heq⟩
  · obtain ⟨rfl, rfl⟩ := List.cons.inj heq
    have hnext := getElem?_of_drop (drop_of_drop h 0)
    have hlength := (List.getElem?_eq_some_iff.1 hnext).1
    have hone : Odd (backslashesBefore text (start + 1)) := by
      rw [backslashesBefore_succ hhere, if_pos rfl]
      exact (Nat.not_odd_iff_even.1 heven).add_one
    have htwo : ¬Odd (backslashesBefore text (start + 2)) := by
      rw [backslashesBefore_succ hnext]
      split
      · exact Nat.not_odd_iff_even.2 hone.add_one
      · decide
    refine ⟨fun p hle hlt => ?_, htwo⟩
    obtain rfl | rfl : p = start ∨ p = start + 1 := by
      simp only [List.length_singleton] at hlt
      omega
    · exact not_offends_backslash hhere hlength
    · rintro (⟨here, blank, stray, free⟩ | ⟨last, odd⟩)
      · exact free hone
      · exact htwo (last ▸ odd)
  · obtain ⟨hall, hlast⟩ := not_offends_run h hne hrun
    rw [List.length_cons, Nat.add_comm tail.length, ← Nat.add_assoc] at hall hlast
    exact ⟨hall, by rw [hlast]; decide⟩
  · obtain ⟨rfl, rfl⟩ := List.cons.inj heq
    obtain ⟨hall, hlast⟩ := not_offends_run (drop_of_drop h 0) hne hrun
    refine ⟨fun p hle hlt => ?_, by rw [hlast]; decide⟩
    rcases Nat.eq_or_lt_of_le hle with rfl | hle
    · have hpos := List.length_pos_iff.2 hne
      have hlength := congrArg List.length h
      simp only [List.length_drop, List.length_cons, List.length_append] at hlength
      exact not_offends_backslash hhere (by omega)
    · exact hall p hle hlt

theorem isBlank_of_lexeme? (h : lexeme? c rest = none) :
    (c = '\\' ∧ rest = []) ∨ Text.isBlank c = true := by
  unfold lexeme? at h
  split at h
  · rename_i hc
    cases rest with
    | nil => exact .inl ⟨hc, rfl⟩
    | cons d rest =>
      rw [command?] at h
      split at h <;> cases h
  · right
    -- the other branches that find no token are those of a blank
    repeat' split at h
    all_goals first | assumption | cases h

/-- Where no token begins and nothing is separated, the text offends. -/
theorem offends_of_lexeme? (h : text.drop start = c :: rest) (hc : isSeparator c = false)
    (heven : ¬Odd (backslashesBefore text start)) (hnone : lexeme? c rest = none) :
    Offends text start := by
  have hhere := getElem?_of_drop h
  rcases isBlank_of_lexeme? hnone with ⟨rfl, rfl⟩ | hblank
  · have hlength : start + 1 = text.length := by
      have hlength := congrArg List.length h
      simp only [List.length_drop, List.length_singleton] at hlength
      omega
    refine .trailing hlength ?_
    rw [← hlength, backslashesBefore_succ hhere, if_pos rfl]
    exact (Nat.not_odd_iff_even.1 heven).add_one
  · exact .blank hhere hblank hc heven

/-- Tokens are found if nothing offends from an offset on, and otherwise the first position that
does is refused. -/
def Refuses (text : List Char) (start : Nat) : Except TexError (List Token) → Prop
  | .ok _ => ∀ p, start ≤ p → ¬Offends text p
  | .error e => ∃ (p : Nat) (d : Char), text[p]? = some d ∧
      e = ⟨.unexpectedCharacter d, some (p : Int)⟩ ∧ Offends text p ∧
      ∀ q, start ≤ q → Offends text q → p ≤ q

/-- What is right from one offset on is right from an earlier one if nothing offends in between. -/
theorem Refuses.from_earlier {next : Nat} {found : Except TexError (List Token)}
    (h : Refuses text next found) (hnone : ∀ p, start ≤ p → p < next → ¬Offends text p) :
    Refuses text start found := by
  have hlater {q : Nat} (hq : start ≤ q) (hoff : Offends text q) : next ≤ q :=
    Nat.le_of_not_lt fun hlt => hnone q hq hlt hoff
  cases found with
  | ok tokens => exact fun q hq hoff => h q (hlater hq hoff) hoff
  | error e =>
    obtain ⟨p, d, hd, rfl, hoffends, hleast⟩ := h
    exact ⟨p, d, hd, rfl, hoffends, fun q hq hoff => hleast q (hlater hq hoff) hoff⟩

theorem tokensFrom_refuses {s : List Char} (h : text.drop start = s)
    (heven : ¬Odd (backslashesBefore text start)) : Refuses text start (tokensFrom start s) := by
  fun_induction tokensFrom start s with
  | case1 start =>
    have hlength := List.drop_eq_nil_iff.1 h
    rintro p hp (⟨here, -, -, -⟩ | ⟨last, -⟩)
    · have hlt := (List.getElem?_eq_some_iff.1 here).1
      omega
    · omega
  | case2 start c rest hseparator ih =>
    have hhere := getElem?_of_drop h
    have hc : c ≠ '\\' := by
      rintro rfl
      exact absurd hseparator (by decide)
    have hnext : ¬Odd (backslashesBefore text (start + 1)) := by
      rw [backslashesBefore_succ hhere, if_neg hc]
      decide
    refine (ih (drop_of_drop h 0) hnext).from_earlier fun p hle hlt => ?_
    obtain rfl : p = start := Nat.le_antisymm (Nat.le_of_lt_succ hlt) hle
    refine not_offends_of_ne hhere hc fun _ hstray => ?_
    rw [hseparator] at hstray
    cases hstray
  | case3 start c rest hseparator hlexeme =>
    refine ⟨start, c, getElem?_of_drop h, rfl, ?_, fun q hq _ => hq⟩
    exact offends_of_lexeme? h (Bool.eq_false_iff.2 hseparator) heven hlexeme
  | case4 start c rest hseparator kind more hlexeme e herror ih =>
    obtain ⟨hnone, hnext⟩ := (lexeme?_eq_some_iff.1 hlexeme).not_offends h heven
    have ih := ih (drop_of_drop h more) hnext
    rw [herror] at ih
    exact ih.from_earlier hnone
  | case5 start c rest hseparator kind more hlexeme others hothers ih =>
    obtain ⟨hnone, hnext⟩ := (lexeme?_eq_some_iff.1 hlexeme).not_offends h heven
    have ih := ih (drop_of_drop h more) hnext
    rw [hothers] at ih
    exact ih.from_earlier hnone

end

end Token

open Token in
/-- A text can be cut into tokens just if every blank that is no separator stands right after an odd
number of backslashes and the text does not end in an odd number of them.  If it cannot, the error
is at the first position that offends.  If it can, the tokens are its one decomposition: slices of
the text in order with only separators between them, each as long as its kind allows. -/
theorem tokenize_decomposes (text : String) :
    ((∃ tokens, tokenize text = .ok tokens) ↔
      (∀ p c, text.toList[p]? = some c → Text.isBlank c = true → isSeparator c = false →
        Odd (backslashesBefore text.toList p)) ∧
      ¬Odd (backslashesBefore text.toList text.toList.length)) ∧
    (∀ e, tokenize text = .error e →
      e.id = "LexError" ∧ ∃ p : Nat, e.offset = some (p : Int) ∧ IsLeast {p | Offends text.toList p} p) ∧
    ∀ tokens, tokenize text = .ok tokens ↔ Decomposes text.toList 0 tokens := by
  have hrefuses : Refuses text.toList 0 (tokenize text) :=
    tokensFrom_refuses rfl (not_odd_backslashesBefore_zero _)
  refine ⟨?_, ?_, fun tokens => tokensFrom_eq_ok_iff rfl⟩
  · rw [← forall_not_offends_iff]
    constructor
    · rintro ⟨tokens, htokens⟩ p
      rw [htokens] at hrefuses
      exact hrefuses p (Nat.zero_le p)
    · intro hnone
      cases hfound : tokenize text with
      | ok tokens => exact ⟨tokens, rfl⟩
      | error e =>
        rw [hfound] at hrefuses
        obtain ⟨p, -, -, -, hoffends, -⟩ := hrefuses
        exact absurd hoffends (hnone p)
  · intro e he
    rw [he] at hrefuses
    obtain ⟨p, d, -, rfl, hoffends, hleast⟩ := hrefuses
    exact ⟨rfl, p, rfl, hoffends, fun q hq => hleast q (Nat.zero_le q) hq⟩

end Formulary
