import Formulary.Proofs.Reader.BraceGroups
import Formulary.Proofs.Reader.TakenTokens
import Formulary.Tex.Cursor

/-! # The brace that matches

An opening brace is matched by the first token by which as many braces are closed as were opened
from there on (`Cursor.Matches`).  Counting finds it (`Cursor.closing?_eq_some_iff`), and what
stands between the two braces is then paired, so they enclose a group (`Cursor.IsGroup`).

Of an argument that begins with a brace exactly this group is taken, of any other argument one token
(`Cursor.argument_matches`).  A reader takes the same from the tokens that are left to it
(`Cursor.argument_unread`). -/

namespace Formulary

open Token

/-! ### Counting braces -/

theorem Token.openBraces_append (tokens tokens' : List Token) :
    openBraces (tokens ++ tokens') = openBraces tokens + openBraces tokens' := by
  simp only [openBraces, List.countP_append]
  omega

/-- The tokens that are no commands. -/
def Token.withoutCommands (tokens : List Token) : List Token := tokens.filter (!·.isCommand)

theorem Token.ne_closeBrace {t : Token} (h : t.kind = .openBrace) : t.kind ≠ .closeBrace := by
  rw [h]
  decide

theorem Token.natCast_bracesAfter (t : Token) (n : Nat) :
    (t.kind.bracesAfter (n + 1) : Int) = n + 1 + openBraces [t] := by
  by_cases hopen : t.kind = .openBrace
  · rw [openBraces_open hopen, hopen]
    rfl
  by_cases hclose : t.kind = .closeBrace
  · rw [openBraces_close hclose, hclose, TokenKind.bracesAfter]
    omega
  · rw [openBraces_other hopen hclose, bracesAfter_of_ne hopen hclose]
    omega

theorem Token.kind_of_openBraces_pos {t : Token} (h : 0 < openBraces [t]) : t.kind = .openBrace := by
  by_cases hclose : t.kind = .closeBrace
  · rw [openBraces_close hclose] at h
    exact absurd h (by decide)
  · refine Decidable.byContradiction fun hopen => ?_
    rw [openBraces_other hopen hclose] at h
    exact Int.lt_irrefl 0 h

theorem Token.le_openBraces_singleton (t : Token) : -1 ≤ openBraces [t] := by
  have hnext := natCast_bracesAfter t 0
  omega

namespace Reader

/-- A group ends with the token that closes its first brace, and otherwise goes on. -/
theorem groupEnd?_cons (depth : Nat) (t : Token) (rest : List Token) :
    groupEnd? depth (t :: rest) =
      if t.kind.bracesAfter (depth + 1) = 0 then some ([], rest)
      else (groupEnd? (t.kind.bracesAfter (depth + 1) - 1) rest).map
        fun found => (t :: found.1, found.2) := by
  rw [groupEnd?.eq_def]
  dsimp only
  by_cases hclose : t.kind = .closeBrace
  · rw [if_pos hclose, hclose]
    cases depth <;> rfl
  by_cases hopen : t.kind = .openBrace
  · rw [if_neg hclose, if_pos hopen, hopen]
    rfl
  · rw [if_neg hclose, if_neg hopen, bracesAfter_of_ne hopen hclose]
    rfl

/-- Tokens that are no braces may be left out before a group is taken as well as afterwards. -/
theorem groupEnd?_filter {keeps : Token → Bool}
    (hkeeps : ∀ t, t.kind = .openBrace ∨ t.kind = .closeBrace → keeps t = true) (depth : Nat)
    (tokens : List Token) :
    groupEnd? depth (tokens.filter keeps) =
      (groupEnd? depth tokens).map (Prod.map (List.filter keeps) (List.filter keeps)) := by
  induction tokens generalizing depth with
  | nil => rfl
  | cons t rest ih =>
    rw [groupEnd?_cons]
    by_cases ht : keeps t = true
    · rw [List.filter_cons_of_pos ht, groupEnd?_cons]
      split
      · rfl
      · rw [ih, Option.map_map, Option.map_map]
        simp [Function.comp_def, Prod.map_def, ht]
    · obtain ⟨hopen, hclose⟩ := not_or.1 (mt (hkeeps t) ht)
      rw [List.filter_cons_of_neg ht, ih, bracesAfter_of_ne hopen hclose,
        if_neg (Nat.succ_ne_zero depth), Option.map_map]
      simp [Function.comp_def, Prod.map_def, ht]

end Reader

namespace Cursor

variable {t : Token} {tokens rest : List Token} {depth : Int} {k : Nat}

/-- The token with the number `k` is the first one by which all braces are closed, `depth` that were
open before the tokens and those that the tokens open. -/
structure ClosesAt (depth : Int) (tokens : List Token) (k : Nat) : Prop where
  inside : k < tokens.length
  closed : depth + openBraces (tokens.take (k + 1)) = 0
  pending : ∀ p ≤ k, 0 < depth + openBraces (tokens.take p)

theorem ClosesAt.depth_pos (h : ClosesAt depth tokens k) : 0 < depth := by
  simpa [openBraces] using h.pending 0 (Nat.zero_le k)

theorem closesAt_zero (hdepth : 0 < depth) :
    ClosesAt depth (t :: rest) 0 ↔ depth + openBraces [t] = 0 := by
  refine ⟨fun h => h.closed, fun h => ⟨Nat.zero_lt_succ _, h, fun p hp => ?_⟩⟩
  obtain rfl := Nat.le_zero.1 hp
  simpa [openBraces] using hdepth

theorem closesAt_succ (hdepth : 0 < depth) :
    ClosesAt depth (t :: rest) (k + 1) ↔ ClosesAt (depth + openBraces [t]) rest k := by
  have htake (p : Nat) : depth + openBraces ((t :: rest).take (p + 1)) =
      depth + openBraces [t] + openBraces (rest.take p) := by
    rw [List.take_succ_cons, openBraces_cons, Int.add_assoc]
  refine ⟨fun ⟨hinside, hclosed, hpending⟩ => ?_, fun ⟨hinside, hclosed, hpending⟩ => ?_⟩
  · refine ⟨Nat.lt_of_succ_lt_succ hinside, (htake _).symm.trans hclosed, fun p hp => ?_⟩
    rw [← htake]
    exact hpending (p + 1) (Nat.succ_le_succ hp)
  · refine ⟨Nat.succ_lt_succ hinside, (htake _).trans hclosed, fun p hp => ?_⟩
    cases p with
    | zero => simpa [openBraces] using hdepth
    | succ p =>
      rw [htake]
      exact hpending p (Nat.le_of_succ_le_succ hp)

/-- The count goes on with what the first token opens or closes, unless that closes the last brace.
-/
theorem closing?_cons (hdepth : 0 < depth) (t : Token) (rest : List Token) :
    closing? depth (t :: rest) =
      if depth + openBraces [t] = 0 then some 0
      else (closing? (depth + openBraces [t]) rest).map (· + 1) := by
  rw [closing?]
  by_cases hopen : t.kind = .openBrace
  · rw [if_pos hopen, openBraces_open hopen, if_neg (by omega)]
  by_cases hclose : t.kind = .closeBrace
  · rw [if_neg hopen, if_pos hclose, openBraces_close hclose]
    rfl
  · rw [if_neg hopen, if_neg hclose, openBraces_other hopen hclose, Int.add_zero,
      if_neg (by omega)]

/-- Counting stops at the first token by which every open brace is closed. -/
theorem closing?_eq_some_iff (hdepth : 0 < depth) :
    closing? depth tokens = some k ↔ ClosesAt depth tokens k := by
  induction tokens generalizing depth k with
  | nil => exact ⟨fun h => (nomatch h), fun h => absurd h.inside (Nat.not_lt_zero k)⟩
  | cons t rest ih =>
    rw [closing?_cons hdepth]
    -- the first token closes the last brace, or the others are counted with as many open as it leaves
    cases k with
    | zero =>
      rw [closesAt_zero hdepth]
      split <;> simp [*]
    | succ k =>
      rw [closesAt_succ hdepth]
      split
      · rename_i hzero
        exact ⟨fun h => (nomatch h), fun h => absurd hzero (Int.ne_of_gt h.depth_pos)⟩
      · rename_i hne
        have hpos : 0 < depth + openBraces [t] := by
          have hle := le_openBraces_singleton t
          omega
        rw [← ih hpos]
        simp

/-- The count comes to the end of the group where the reader does. -/
theorem closing?_groupEnd? (depth : Nat) (tokens : List Token) :
    closing? (depth + 1) tokens = (Reader.groupEnd? depth tokens).map (·.1.length) := by
  induction tokens generalizing depth with
  | nil => rfl
  | cons t rest ih =>
    rw [closing?_cons (by omega), Reader.groupEnd?_cons, ← natCast_bracesAfter]
    cases t.kind.bracesAfter (depth + 1) with
    | zero => rfl
    | succ n =>
      rw [if_neg (by omega), if_neg (Nat.succ_ne_zero n), Nat.add_sub_cancel, Int.natCast_succ, ih]
      simp [Function.comp_def]

theorem closesAt_of_groupEnd? {n : Nat} {inside after : List Token}
    (hend : Reader.groupEnd? n tokens = some (inside, after)) :
    ClosesAt (n + 1) tokens inside.length := by
  rw [← closing?_eq_some_iff (by omega), closing?_groupEnd?, hend]
  rfl

theorem ClosesAt.exists_groupEnd? {n : Nat} (h : ClosesAt (n + 1) tokens k) :
    ∃ inside after, Reader.groupEnd? n tokens = some (inside, after) ∧ inside.length = k := by
  rw [← closing?_eq_some_iff h.depth_pos, closing?_groupEnd?] at h
  obtain ⟨⟨inside, after⟩, hend, hlength⟩ := Option.map_eq_some_iff.1 h
  exact ⟨inside, after, hend, hlength⟩

/-! ### Groups at a cursor -/

/-- The token with the number `j` matches the brace at the cursor: it is the first one by which as
many braces are closed as were opened from there on. -/
structure Matches (c : Cursor) (j : Nat) : Prop where
  ahead : c.position < j
  inside : j < c.tokens.length
  closed : openBraces (c.upTo (j + 1)) = 0
  first : ∀ i, c.position < i → i ≤ j → 0 < openBraces (c.upTo i)

/-- From one cursor to the other there are two braces and the tokens `inside` between them, which
are paired. -/
structure IsGroup (c c' : Cursor) (inside : List Token) : Prop where
  tokens_eq : c'.tokens = c.tokens
  position_eq : c'.position = c.position + (inside.length + 2)
  braces : ∃ opening closing : Token, opening.kind = .openBrace ∧ closing.kind = .closeBrace ∧
    c.upTo c'.position = group opening closing inside
  paired : ArePaired inside

variable {c c' : Cursor} {command : String} {inside after : List Token}

theorem matches_iff_closesAt (ht : c.next? = some t) (hopen : t.kind = .openBrace) :
    c.Matches (c.position + (k + 1)) ↔ ClosesAt 1 (c.tokens.drop (c.position + 1)) k := by
  have hupTo (n : Nat) : openBraces (c.upTo (c.position + (n + 1))) =
      1 + openBraces ((c.tokens.drop (c.position + 1)).take n) := by
    rw [upTo_add, unread_eq_cons ht, List.take_succ_cons, openBraces_cons, openBraces_open hopen]
  refine ⟨fun ⟨_, hinside, hclosed, hfirst⟩ => ?_, fun ⟨hinside, hclosed, hpending⟩ => ?_⟩
  · refine ⟨by rw [List.length_drop]; omega, (hupTo _).symm.trans hclosed, fun p hp => ?_⟩
    rw [← hupTo]
    exact hfirst _ (by omega) (by omega)
  · rw [List.length_drop] at hinside
    refine ⟨by omega, by omega, (hupTo _).trans hclosed, fun i hi hle => ?_⟩
    obtain ⟨n, rfl⟩ := Nat.exists_eq_add_of_lt hi
    rw [Nat.add_assoc, hupTo]
    exact hpending n (by omega)

theorem Matches.exists_open {j : Nat} (h : c.Matches j) :
    ∃ t, c.next? = some t ∧ t.kind = .openBrace := by
  have hfirst := h.first (c.position + 1) (Nat.lt_succ_self _) h.ahead
  cases ht : c.next? with
  | none =>
    rw [upTo_add, unread_eq_nil ht] at hfirst
    exact absurd hfirst (Int.lt_irrefl 0)
  | some t =>
    rw [upTo_add, unread_eq_cons ht, List.take_succ_cons, List.take_zero] at hfirst
    exact ⟨t, rfl, kind_of_openBraces_pos hfirst⟩

theorem IsGroup.exists_unread (h : c.IsGroup c' inside) :
    ∃ opening closing : Token, opening.kind = .openBrace ∧ closing.kind = .closeBrace ∧
      c.unread = group opening closing inside ++ c'.unread := by
  obtain ⟨opening, closing, hopening, hclosing, hupTo⟩ := h.braces
  refine ⟨opening, closing, hopening, hclosing, ?_⟩
  rw [h.position_eq, upTo_add] at hupTo
  rw [← hupTo, unread, unread, h.tokens_eq, h.position_eq, ← List.drop_drop, List.take_append_drop]

theorem isGroup_of_unread {opening closing : Token} (hopening : opening.kind = .openBrace)
    (hclosing : closing.kind = .closeBrace) (hpaired : ArePaired inside)
    (h : c.unread = group opening closing inside ++ after) :
    c.IsGroup ⟨c.tokens, c.position + (inside.length + 2)⟩ inside := by
  have hlength : inside.length + 2 = (group opening closing inside).length := by simp [group]
  refine ⟨rfl, rfl, ⟨opening, closing, hopening, hclosing, ?_⟩, hpaired⟩
  rw [upTo_add, h, hlength, List.take_left]

theorem isGroup_of_groupEnd? (ht : c.next? = some t) (hopen : t.kind = .openBrace)
    (hend : Reader.groupEnd? 0 (c.tokens.drop (c.position + 1)) = some (inside, after)) :
    c.IsGroup ⟨c.tokens, c.position + (inside.length + 2)⟩ inside := by
  obtain ⟨closing, hrest, hclosing, -⟩ := Reader.groupEnd?_eq_some hend
  have hunread : c.unread = group t closing inside ++ after := by
    rw [unread_eq_cons ht, hrest, group, List.cons_append, List.append_assoc,
      List.singleton_append]
  obtain ⟨-, hclosed, hpending⟩ := closesAt_of_groupEnd? hend
  rw [hrest] at hclosed hpending
  -- the brace before these tokens stays open up to the last one, so what they close they open
  refine isGroup_of_unread hopen hclosing ⟨fun p hp => ?_, ?_⟩ hunread
  · have hopened := hpending p hp
    rw [List.take_append_of_le_length hp] at hopened
    omega
  · rw [List.take_length_add_append, List.take_succ_cons, List.take_zero, openBraces_append,
      openBraces_close hclosing] at hclosed
    omega

theorem IsGroup.groupEnd? (h : c.IsGroup c' inside) : ∃ t, c.next? = some t ∧ t.kind = .openBrace ∧
    Reader.groupEnd? 0 (c.tokens.drop (c.position + 1)) = some (inside, c'.unread) := by
  obtain ⟨opening, closing, hopening, hclosing, hunread⟩ := h.exists_unread
  cases ht : c.next? with
  | none => simp [unread_eq_nil ht, group] at hunread
  | some t =>
    rw [unread_eq_cons ht, group, List.cons_append, List.append_assoc,
      List.singleton_append] at hunread
    obtain ⟨rfl, hrest⟩ := List.cons.inj hunread
    refine ⟨t, rfl, hopening, ?_⟩
    rw [hrest]
    exact Reader.groupEnd?_append (arePairedAfter_of_arePaired h.paired) hclosing _

theorem IsGroup.eq_mk (h : c.IsGroup c' inside) :
    c' = ⟨c.tokens, c.position + (inside.length + 2)⟩ := by
  obtain ⟨tokens, position⟩ := c'
  exact congrArg₂ Cursor.mk h.tokens_eq h.position_eq

theorem IsGroup.unique {c'' : Cursor} {inside' : List Token} (h : c.IsGroup c' inside)
    (h' : c.IsGroup c'' inside') : c'' = c' ∧ inside' = inside := by
  obtain ⟨t, -, -, hend⟩ := h.groupEnd?
  obtain ⟨u, -, -, hend'⟩ := h'.groupEnd?
  rw [hend'] at hend
  obtain ⟨rfl, -⟩ := Prod.mk.inj (Option.some.inj hend)
  exact ⟨h'.eq_mk.trans h.eq_mk.symm, rfl⟩

theorem matches_iff {j : Nat} :
    c.Matches j ↔ ∃ c' inside, c.IsGroup c' inside ∧ c'.position = j + 1 := by
  refine ⟨fun h => ?_, fun ⟨c', inside, h, hposition⟩ => ?_⟩
  · obtain ⟨t, ht, hopen⟩ := h.exists_open
    obtain ⟨n, rfl⟩ := Nat.exists_eq_add_of_lt h.ahead
    obtain ⟨inside, after, hend, rfl⟩ := ((matches_iff_closesAt ht hopen).1 h).exists_groupEnd?
    exact ⟨_, inside, isGroup_of_groupEnd? ht hopen hend, rfl⟩
  · obtain ⟨t, ht, hopen, hend⟩ := h.groupEnd?
    obtain rfl : c.position + (inside.length + 1) = j :=
      Nat.succ.inj (h.position_eq.symm.trans hposition)
    exact (matches_iff_closesAt ht hopen).2 (closesAt_of_groupEnd? hend)

theorem groupEnd?_eq_none_iff (ht : c.next? = some t) (hopen : t.kind = .openBrace) :
    Reader.groupEnd? 0 (c.tokens.drop (c.position + 1)) = none ↔ ∀ j, ¬c.Matches j := by
  refine ⟨fun hend j h => ?_, fun h => ?_⟩
  · obtain ⟨c', inside, hgroup, -⟩ := matches_iff.1 h
    obtain ⟨u, -, -, hfound⟩ := hgroup.groupEnd?
    rw [hend] at hfound
    cases hfound
  · cases hend : Reader.groupEnd? 0 (c.tokens.drop (c.position + 1)) with
    | none => rfl
    | some found =>
      have hgroup := isGroup_of_groupEnd? ht hopen hend
      exact absurd (matches_iff.2 ⟨_, _, hgroup, hgroup.position_eq⟩) (h _)

/-! ### Arguments -/

/-- What may come of taking an argument at a cursor. -/
inductive Outcome (command : String) (c : Cursor) : Taken → Prop
  | missing (hnext : c.next? = none) :
    Outcome command c ⟨.error (.missingArgument command), c⟩
  | extra {t : Token} (ht : c.next? = some t) (hclose : t.kind = .closeBrace) :
    Outcome command c ⟨.error .extraCloseBrace, c⟩
  | unmatched {t : Token} (ht : c.next? = some t) (hopen : t.kind = .openBrace)
    (hnone : ∀ j, ¬c.Matches j) : Outcome command c ⟨.error .missingCloseBrace, c⟩
  | single {t : Token} (ht : c.next? = some t) (hopen : t.kind ≠ .openBrace)
    (hclose : t.kind ≠ .closeBrace) : Outcome command c ⟨.ok [t], ⟨c.tokens, c.position + 1⟩⟩
  | group {inside : List Token} {c' : Cursor} (h : c.IsGroup c' inside) :
    Outcome command c ⟨.ok inside, c'⟩

theorem exists_outcome (command : String) (c : Cursor) : ∃ taken, Outcome command c taken := by
  cases ht : c.next? with
  | none => exact ⟨_, .missing ht⟩
  | some t =>
    by_cases hclose : t.kind = .closeBrace
    · exact ⟨_, .extra ht hclose⟩
    by_cases hopen : t.kind = .openBrace
    · cases hend : Reader.groupEnd? 0 (c.tokens.drop (c.position + 1)) with
      | none => exact ⟨_, .unmatched ht hopen ((groupEnd?_eq_none_iff ht hopen).1 hend)⟩
      | some found => exact ⟨_, .group (isGroup_of_groupEnd? ht hopen hend)⟩
    · exact ⟨_, .single ht hopen hclose⟩

theorem closing?_unread (ht : c.next? = some t) (hopen : t.kind = .openBrace) :
    closing? 0 c.unread =
      (Reader.groupEnd? 0 (c.tokens.drop (c.position + 1))).map (·.1.length + 1) := by
  have hsame := closing?_groupEnd? 0 (c.tokens.drop (c.position + 1))
  rw [unread_eq_cons ht, closing?, if_pos hopen]
  exact (congrArg _ hsame).trans (Option.map_map ..)

theorem Outcome.argument_eq {taken : Taken} (h : Outcome command c taken) :
    c.argument command = taken := by
  rw [argument.eq_def]
  cases h with
  | missing hnext => rw [hnext]
  | extra ht hclose =>
    rw [ht]
    exact if_pos hclose
  | unmatched ht hopen hnone =>
    rw [ht, closing?_unread ht hopen, (groupEnd?_eq_none_iff ht hopen).2 hnone]
    dsimp only
    rw [if_neg (ne_closeBrace hopen), if_pos hopen]
    rfl
  | single ht hopen hclose =>
    rw [ht]
    dsimp only
    rw [if_neg hclose, if_neg hopen]
  | @group inside c' h =>
    obtain ⟨t, ht, hopen, hend⟩ := h.groupEnd?
    obtain ⟨closing, hrest, -, -⟩ := Reader.groupEnd?_eq_some hend
    rw [ht, closing?_unread ht hopen, hend]
    dsimp only [Option.map_some]
    have hlength : c.position + (inside.length + 1) - (c.position + 1) = inside.length := by omega
    rw [if_neg (ne_closeBrace hopen), if_pos hopen, List.extract_eq_take_drop, hlength, hrest,
      List.take_left, h.eq_mk]
    rfl

/-- What comes of taking an argument at a cursor, and nothing else does. -/
theorem argument_eq_iff {taken : Taken} :
    c.argument command = taken ↔ Outcome command c taken := by
  refine ⟨?_, Outcome.argument_eq⟩
  rintro rfl
  obtain ⟨taken, h⟩ := exists_outcome command c
  rwa [h.argument_eq]

/-- A reader takes from the tokens that are left what is taken at the cursor, and fails for the same
reasons. -/
theorem argument_unread (command : String) (c : Cursor) :
    Reader.argument command c.unread =
      (c.argument command).answer.map (·, (c.argument command).cursor.unread) := by
  obtain ⟨taken, houtcome⟩ := exists_outcome command c
  rw [houtcome.argument_eq]
  cases houtcome with
  | missing hnext =>
    rw [unread_eq_nil hnext]
    rfl
  | extra ht hclose =>
    rw [unread_eq_cons ht, Reader.argument, if_pos hclose]
    rfl
  | unmatched ht hopen hnone =>
    rw [unread_eq_cons ht, Reader.argument, if_neg (ne_closeBrace hopen), if_pos hopen,
      (groupEnd?_eq_none_iff ht hopen).2 hnone]
    rfl
  | single ht hopen hclose =>
    rw [unread_eq_cons ht, Reader.argument, if_neg hclose, if_neg hopen]
    rfl
  | group h =>
    obtain ⟨t, ht, hopen, hend⟩ := h.groupEnd?
    rw [unread_eq_cons ht, Reader.argument, if_neg (ne_closeBrace hopen), if_pos hopen, hend]
    rfl

theorem exists_answer_iff : (∃ found, (c.argument command).answer = .ok found) ↔
    ∃ t, c.next? = some t ∧ t.kind ≠ .closeBrace ∧
      (t.kind ≠ .openBrace ∨ ∃ j, c.Matches j) := by
  obtain ⟨taken, houtcome⟩ := exists_outcome command c
  rw [houtcome.argument_eq]
  cases houtcome with
  | missing hnext => simp [hnext]
  | extra ht hclose => simp [ht, hclose]
  | unmatched ht hopen hnone => simp [ht, hopen, hnone]
  | single ht hopen hclose => simp [ht, hopen, hclose]
  | group h =>
    obtain ⟨t, ht, hopen, -⟩ := h.groupEnd?
    have hmatches := matches_iff.2 ⟨_, _, h, h.position_eq⟩
    exact ⟨fun _ => ⟨t, ht, ne_closeBrace hopen, .inr ⟨_, hmatches⟩⟩, fun _ => ⟨_, rfl⟩⟩

theorem argument_eq_ok_iff {found : List Token} :
    c.argument command = ⟨.ok found, c'⟩ ↔ ∃ t, c.next? = some t ∧
      (t.kind = .openBrace ∧ c.IsGroup c' found ∨
        t.kind ≠ .openBrace ∧ t.kind ≠ .closeBrace ∧ found = [t] ∧
          c' = ⟨c.tokens, c.position + 1⟩) := by
  rw [argument_eq_iff]
  refine ⟨fun h => ?_, ?_⟩
  · cases h with
    | single ht hopen hclose => exact ⟨_, ht, .inr ⟨hopen, hclose, rfl, rfl⟩⟩
    | group h =>
      obtain ⟨t, ht, hopen, -⟩ := h.groupEnd?
      exact ⟨t, ht, .inl ⟨hopen, h⟩⟩
  · rintro ⟨t, ht, ⟨-, h⟩ | ⟨hopen, hclose, rfl, rfl⟩⟩
    · exact .group h
    · exact .single ht hopen hclose

/-- Why nothing is taken; the cursor stays where it is. -/
theorem argument_eq_error_iff {cause : TexCause} :
    c.argument command = ⟨.error cause, c'⟩ ↔ c' = c ∧
      (cause = .missingArgument command ∧ cause.id = "MissingArgFor" ∧ c.next? = none ∨
        ∃ t, c.next? = some t ∧
          (cause = .extraCloseBrace ∧ cause.id = "ExtraCloseMissingOpen" ∧ t.kind = .closeBrace ∨
            cause = .missingCloseBrace ∧ cause.id = "MissingCloseBrace" ∧ t.kind = .openBrace ∧
              ∀ j, ¬c.Matches j)) := by
  rw [argument_eq_iff]
  refine ⟨fun h => ?_, ?_⟩
  · cases h with
    | missing hnext => exact ⟨rfl, .inl ⟨rfl, rfl, hnext⟩⟩
    | extra ht hclose => exact ⟨rfl, .inr ⟨_, ht, .inl ⟨rfl, rfl, hclose⟩⟩⟩
    | unmatched ht hopen hnone => exact ⟨rfl, .inr ⟨_, ht, .inr ⟨rfl, rfl, hopen, hnone⟩⟩⟩
  · rintro ⟨rfl, ⟨rfl, -, hnext⟩ | ⟨t, ht, ⟨rfl, -, hclose⟩ | ⟨rfl, -, hopen, hnone⟩⟩⟩
    · exact .missing hnext
    · exact .extra ht hclose
    · exact .unmatched ht hopen hnone

/-- Commands in a group, and behind it, make no difference to where it ends. -/
theorem argument_withoutCommands (ht : c.next? = some t) (hopen : t.kind = .openBrace) :
    Reader.argument command (withoutCommands c.unread) =
      (Reader.argument command c.unread).map (Prod.map withoutCommands withoutCommands) := by
  have hkeeps (u : Token) (hu : u.kind = .openBrace ∨ u.kind = .closeBrace) :
      (!u.isCommand) = true := by
    rcases hu with hu | hu <;> simp [isCommand, hu]
  have hnot := ne_closeBrace hopen
  have hfirst : withoutCommands (t :: c.tokens.drop (c.position + 1)) =
      t :: withoutCommands (c.tokens.drop (c.position + 1)) :=
    List.filter_cons_of_pos (hkeeps t (.inl hopen))
  have hend := Reader.groupEnd?_filter hkeeps 0 (c.tokens.drop (c.position + 1))
  rw [← withoutCommands] at hend
  rw [unread_eq_cons ht, hfirst, Reader.argument, Reader.argument, if_neg hnot, if_neg hnot,
    if_pos hopen, if_pos hopen, hend]
  cases Reader.groupEnd? 0 (c.tokens.drop (c.position + 1)) <;> rfl

/-- Taking an argument takes one group or one other token.  It succeeds where there is a token that
is no closing brace, and if it is an opening one, is matched by a later one.  From such a brace on
exactly the tokens up to its match are taken, and what the two enclose is the argument: it is
paired, and no other tokens from the cursor on are a group.  Of any other argument one token is
taken.  A failure, for one of three reasons, leaves the tokens and the place among them as they
were.  Commands are no braces: of the tokens of a text only those that are spelled with a brace
alone are, and a group ends where it does without its commands.  A reader takes the same from the
tokens that are left to it, and fails for the same reasons. -/
theorem argument_matches (command : String) (c : Cursor) :
    Reader.argument command c.unread =
      (c.argument command).answer.map (·, (c.argument command).cursor.unread) ∧
    ((∃ found, (c.argument command).answer = .ok found) ↔ ∃ t, c.next? = some t ∧
      t.kind ≠ .closeBrace ∧ (t.kind ≠ .openBrace ∨ ∃ j, c.Matches j)) ∧
    (∀ found c', c.argument command = ⟨.ok found, c'⟩ ↔ ∃ t, c.next? = some t ∧
      (t.kind = .openBrace ∧ c.IsGroup c' found ∨
        t.kind ≠ .openBrace ∧ t.kind ≠ .closeBrace ∧ found = [t] ∧
          c' = ⟨c.tokens, c.position + 1⟩)) ∧
    (∀ j, c.Matches j ↔ ∃ c' inside, c.IsGroup c' inside ∧ c'.position = j + 1) ∧
    (∀ c' c'' inside inside', c.IsGroup c' inside → c.IsGroup c'' inside' →
      c'' = c' ∧ inside' = inside) ∧
    (∀ cause c', c.argument command = ⟨.error cause, c'⟩ ↔ c' = c ∧
      (cause = .missingArgument command ∧ cause.id = "MissingArgFor" ∧ c.next? = none ∨
        ∃ t, c.next? = some t ∧
          (cause = .extraCloseBrace ∧ cause.id = "ExtraCloseMissingOpen" ∧ t.kind = .closeBrace ∨
            cause = .missingCloseBrace ∧ cause.id = "MissingCloseBrace" ∧ t.kind = .openBrace ∧
              ∀ j, ¬c.Matches j))) ∧
    (∀ text tokens, tokenize text = .ok tokens → ∀ t ∈ tokens,
      (t.kind = .openBrace ↔ t.text = "\x7b") ∧ (t.kind = .closeBrace ↔ t.text = "\x7d")) ∧
    ∀ t, c.next? = some t → t.kind = .openBrace →
      Reader.argument command (withoutCommands c.unread) =
        (Reader.argument command c.unread).map (Prod.map withoutCommands withoutCommands) := by
  refine ⟨argument_unread command c, exists_answer_iff, fun _ _ => argument_eq_ok_iff,
    fun _ => matches_iff, fun _ _ _ _ => IsGroup.unique, fun _ _ => argument_eq_error_iff,
    fun text tokens h t ht => ?_, fun t => argument_withoutCommands⟩
  have hbraced := tokensFrom_isBraced h t ht
  exact ⟨hbraced.opens, hbraced.closes⟩

/-- A command with an argument has been read, and what its template puts in their stead up to the
second command: a group is next, and in it a brace with a backslash and the argument in braces. -/
def expanded : Cursor where
  tokens := [⟨.controlWord, "\\env", 0⟩, ⟨.openBrace, "\x7b", 4⟩, ⟨.letter, "x", 5⟩,
    ⟨.closeBrace, "\x7d", 6⟩, ⟨.controlWord, "\\begin", 0⟩, ⟨.openBrace, "\x7b", 0⟩,
    ⟨.controlSymbol, "\\\x7b", 0⟩, ⟨.openBrace, "\x7b", 0⟩, ⟨.letter, "x", 5⟩,
    ⟨.closeBrace, "\x7d", 0⟩, ⟨.closeBrace, "\x7d", 0⟩]
  position := 5

/-- The group is taken up to the last brace, and without that brace it is not taken. -/
theorem argument_matches_expanded :
    let found : List Token := [⟨.controlSymbol, "\\\x7b", 0⟩, ⟨.openBrace, "\x7b", 0⟩,
      ⟨.letter, "x", 5⟩, ⟨.closeBrace, "\x7d", 0⟩]
    let cut : Cursor := ⟨expanded.tokens.dropLast, 5⟩
    (expanded.IsGroup ⟨expanded.tokens, 11⟩ found ∧ expanded.Matches 10 ∧
      expanded.argument "\\begin" = ⟨.ok found, ⟨expanded.tokens, 11⟩⟩ ∧
      Reader.argument "\\begin" expanded.unread = .ok (found, [])) ∧
    (∀ j, ¬cut.Matches j) ∧ cut.argument "\\begin" = ⟨.error .missingCloseBrace, cut⟩ := by
  intro found cut
  have hgroup : expanded.IsGroup ⟨expanded.tokens, 11⟩ found :=
    ⟨rfl, rfl, ⟨_, _, rfl, rfl, rfl⟩, by decide⟩
  have hnone : ∀ j, ¬cut.Matches j := (groupEnd?_eq_none_iff rfl rfl).1 rfl
  obtain ⟨hreader, -, hok, hmatches, -⟩ := argument_matches "\\begin" expanded
  have htaken := (hok found _).2 ⟨_, rfl, .inl ⟨rfl, hgroup⟩⟩
  rw [htaken] at hreader
  obtain ⟨-, -, -, -, -, herror, -⟩ := argument_matches "\\begin" cut
  exact ⟨⟨hgroup, (hmatches 10).2 ⟨_, _, hgroup, rfl⟩, htaken, hreader⟩, hnone,
    (herror _ _).2 ⟨rfl, .inr ⟨_, rfl, .inr ⟨rfl, rfl, rfl, hnone⟩⟩⟩⟩

end Cursor

end Formulary
