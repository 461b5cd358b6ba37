import Formulary.Proofs.Delimiters.Search

/-! # The search in a part of a text

Mathematics that has been typeset cuts the text around it into parts.  What the search saw in
front of a place to which it came is what it sees in the text that ends there
(`Scans.truncate`): an opening or a closer that fits into the part is found there, and one that
reaches beyond it would have led the search past the place.

The one closer that could hide another one behind its beginning would hold the last character of a
closer in its middle, and the usual ones do not (`Closer.EndsIn`). -/

namespace Formulary

namespace Sighting

/-- What a sighting is, wherever it was seen. -/
def content (x : Sighting) : String × String × String × Bool :=
  (x.math, x.opener, x.closer, x.display)

/-- The offsets between which a sighting stands. -/
def stretch (x : Sighting) : Nat × Nat := (x.start.toNat, x.stop.toNat)

end Sighting

namespace Delimiters

/-! ### Closers -/

section

variable {blanks : List Char} (hblanks : ∀ b ∈ blanks, Text.isBlank b = true)

include hblanks

theorem dropWhile_blanks (name tail : List Char) :
    (blanks ++ (braced name ++ tail)).dropWhile Text.isBlank = braced name ++ tail := by
  have hbrace : ¬Text.isBlank '\x7b' = true := by decide
  rw [List.dropWhile_append_of_pos hblanks, braced, List.cons_append, List.dropWhile_cons,
    if_neg hbrace]

theorem takeWhile_blanks (name tail : List Char) :
    (blanks ++ (braced name ++ tail)).takeWhile Text.isBlank = blanks := by
  have hbrace : ¬Text.isBlank '\x7b' = true := by decide
  rw [List.takeWhile_append_of_pos hblanks, braced, List.cons_append, List.takeWhile_cons,
    if_neg hbrace, List.append_nil]

end

theorem Closer.length?_of_isSpelled {closer : Closer} {mark : List Char}
    (h : closer.IsSpelled mark) (tail : List Char) :
    closer.length? (mark ++ tail) = some mark.length := by
  cases closer with
  | delimiter text =>
    obtain rfl : mark = text := h
    rw [length?, Text.after?_eq_some.2 rfl, Option.map_some]
  | environment name =>
    obtain ⟨blanks, hblanks, rfl⟩ := h
    have hend : Text.after? "\\end".toList
        ("\\end".toList ++ blanks ++ braced name ++ tail) = some (blanks ++ (braced name ++ tail)) :=
      Text.after?_eq_some.2 (by simp)
    simp only [length?, hend, dropWhile_blanks hblanks, takeWhile_blanks hblanks,
      Text.after?_eq_some.2 rfl, Option.map_some, List.length_append]
    rfl

theorem Closer.length?_append {closer : Closer} {s : List Char} {n : Nat}
    (h : closer.length? s = some n) (t : List Char) : closer.length? (s ++ t) = some n := by
  obtain ⟨hle, hspelled⟩ := length?_eq_some h
  have := length?_of_isSpelled hspelled (s.drop n ++ t)
  rwa [← List.append_assoc, List.take_append_drop, List.length_take_of_le hle] at this

/-- A closer that fits into a part of a text is found there. -/
theorem Closer.length?_of_append {closer : Closer} {s t : List Char} {n : Nat}
    (h : closer.length? (s ++ t) = some n) (hle : n ≤ s.length) : closer.length? s = some n := by
  have hspelled := (length?_eq_some h).2
  rw [List.take_append_of_le_length hle] at hspelled
  have := length?_of_isSpelled hspelled (s.drop n)
  rwa [List.take_append_drop, List.length_take_of_le hle] at this

theorem Closer.length?_eq_none_of_append {closer : Closer} {s t : List Char}
    (h : closer.length? (s ++ t) = none) : closer.length? s = none := by
  cases hs : closer.length? s with
  | none => rfl
  | some n => rw [length?_append hs] at h; cases h

/-- A closer ends in the character `d`, and before it has that character at most at its beginning.
-/
def Closer.EndsIn (closer : Closer) (d : Char) : Prop :=
  ∀ mark, closer.IsSpelled mark → ∃ init, mark = init ++ [d] ∧ d ∉ init.tail

/-! ### Closing -/

theorem Closer.passed_of_isSpelled {closer : Closer} {c : Char} {others : List Char}
    (h : closer.IsSpelled (c :: others)) (rest : List Char) :
    closer.passed c (others ++ rest) = others.length := by
  rw [passed.eq_def, ← List.cons_append, length?_of_isSpelled h rest]
  rfl

/-- What is passed over in a text is passed over in a part that it fits into. -/
theorem Closer.passed_of_append {closer : Closer} {c : Char} {s t : List Char}
    (h : closer.passed c (s ++ t) ≤ s.length) :
    closer.passed c s = closer.passed c (s ++ t) := by
  have hcons : c :: (s ++ t) = c :: s ++ t := rfl
  simp only [passed] at h ⊢
  rw [hcons] at h ⊢
  cases hst : closer.length? (c :: s ++ t) with
  | some n =>
    cases n with
    | succ n =>
      rw [hst] at h
      rw [length?_of_append hst (Nat.succ_le_succ h)]
    | zero =>
      rw [hst] at h
      rw [length?_of_append hst (Nat.zero_le _)]
      cases s with
      | nil => exact (Nat.le_zero.1 h).symm
      | cons d s => rfl
  | none =>
    rw [hst] at h
    rw [length?_eq_none_of_append hst]
    cases s with
    | nil => exact (Nat.le_zero.1 h).symm
    | cons d s => rfl

theorem closing?_of_closer {closer : Closer} {depth : Nat} {s : List Char} {n : Nat}
    (h : (if depth = 0 then closer.length? s else none) = some n) :
    closing? closer depth s = some ⟨[], s.take n, s.drop n⟩ := by
  rw [closing?.eq_def, h]

theorem closing?_cons {closer : Closer} {depth : Nat} {c : Char} {s : List Char}
    (h : (if depth = 0 then closer.length? (c :: s) else none) = none) :
    closing? closer depth (c :: s) =
      (closing? closer (depthAfter depth (c :: s.take (closer.passed c s)))
        (s.drop (closer.passed c s))).map fun cut =>
          { cut with body := c :: s.take (closer.passed c s) ++ cut.body } := by
  rw [closing?.eq_def, h]

theorem Closer.passed_le (closer : Closer) (c : Char) (s : List Char) :
    closer.passed c s ≤ s.length := by
  rw [passed.eq_def]
  split
  · rename_i n hn
    exact Nat.le_of_succ_le_succ (length?_eq_some hn).1
  · cases s with
    | nil => exact Nat.le_refl _
    | cons d s =>
      simp only [List.length_cons]
      split <;> omega

/-- A text that is cut at a closer is cut there when what follows is left out. -/
theorem closing?_of_append {closer : Closer} {depth : Nat} {s : List Char} {cut : Cut}
    (h : closing? closer depth s = some cut) {rest t : List Char} (hrest : cut.rest = rest ++ t) :
    closing? closer depth (cut.body ++ cut.mark ++ rest) = some { cut with rest } := by
  fun_induction closing? closer depth s generalizing cut with
  | case1 depth s n hn =>
    cases h
    have hle : n ≤ s.length := by
      split at hn
      · exact (Closer.length?_eq_some hn).1
      · cases hn
    have hlen : (s.take n).length = n := List.length_take_of_le hle
    have hsplit : s = s.take n ++ rest ++ t := by
      rw [List.append_assoc, ← hrest, List.take_append_drop]
    have hn' : (if depth = 0 then closer.length? (s.take n ++ rest) else none) = some n := by
      split at hn
      · rename_i hdepth
        rw [if_pos hdepth]
        rw [hsplit] at hn
        refine Closer.length?_of_append hn ?_
        rw [List.length_append, hlen]
        exact Nat.le_add_right n _
      · cases hn
    rw [List.nil_append, closing?_of_closer hn', List.take_left' hlen, List.drop_left' hlen]
  | case2 => simp at h
  | case3 depth c s n piece hnone =>
    rename_i ih
    obtain ⟨inner, hinner, rfl⟩ := Option.map_eq_some_iff.1 h
    have hinner' := ih hinner hrest
    -- the part, behind the character `c`
    have hsplit : s = s.take n ++ (inner.body ++ inner.mark ++ rest) ++ t := by
      have htail := closing?_eq_some hinner
      rw [show inner.rest = rest ++ t from hrest] at htail
      rw [List.append_assoc, List.append_assoc _ rest, ← htail, List.take_append_drop]
    have hwhole : piece ++ inner.body ++ inner.mark ++ rest =
        c :: (s.take n ++ (inner.body ++ inner.mark ++ rest)) := by
      simp [piece]
    have hlen : (s.take n).length = n := List.length_take_of_le (Closer.passed_le ..)
    have hpassed : closer.passed c (s.take n ++ (inner.body ++ inner.mark ++ rest)) = n := by
      have hsame : closer.passed c (s.take n ++ (inner.body ++ inner.mark ++ rest) ++ t) = n :=
        congrArg _ hsplit.symm
      rw [Closer.passed_of_append, hsame]
      rw [hsame, List.length_append, hlen]
      exact Nat.le_add_right n _
    have hnone' : (if depth = 0 then
        closer.length? (c :: (s.take n ++ (inner.body ++ inner.mark ++ rest))) else none) = none := by
      split at hnone
      · rename_i hdepth
        rw [if_pos hdepth]
        rw [hsplit] at hnone
        exact Closer.length?_eq_none_of_append (s := c :: _) hnone
      · rename_i hdepth
        rw [if_neg hdepth]
    show closing? closer depth (piece ++ inner.body ++ inner.mark ++ rest) = _
    rw [hwhole, closing?_cons hnone', hpassed, List.take_left' hlen, List.drop_left' hlen, hinner']
    rfl

theorem mem_of_closing? {closer : Closer} {d : Char} (hends : closer.EndsIn d) {depth : Nat}
    {s : List Char} {cut : Cut} (h : closing? closer depth s = some cut) : d ∈ s := by
  obtain ⟨init, hmark, -⟩ := hends cut.mark (closing?_mark h)
  rw [closing?_eq_some h, hmark]
  simp

/-- A closer that reaches beyond a part of the text does not hold its last character in it. -/
theorem Closer.not_mem_of_passed {closer : Closer} {d : Char} (hends : closer.EndsIn d) {c : Char}
    {s t : List Char} (hlt : s.length < closer.passed c (s ++ t)) : d ∉ s := by
  rw [passed.eq_def] at hlt
  split at hlt
  · rename_i n hn
    obtain ⟨hle, hspelled⟩ := length?_eq_some hn
    obtain ⟨init, hmark, hinit⟩ := hends _ hspelled
    obtain ⟨k, rfl⟩ : ∃ k, n = k + 1 := ⟨n - 1, by omega⟩
    have hlen : init.length = k + 1 := by
      have := congrArg List.length hmark
      rw [List.length_take_of_le hle, List.length_append, List.length_singleton] at this
      omega
    have heq : init = c :: (s ++ t).take k := by
      rw [← @List.take_left' _ init [d] _ hlen, ← hmark, List.take_take, Nat.min_eq_left (by omega),
        List.take_succ_cons]
    intro hd
    rw [heq, List.tail_cons, List.take_append, List.take_of_length_le (by omega)] at hinit
    exact hinit (List.mem_append_left _ hd)
  · cases s with
    | nil => simp
    | cons e s =>
      simp only [List.cons_append, List.length_cons] at hlt
      split at hlt <;> omega

theorem closing?_eq_none_of_append {closer : Closer} {d : Char} (hends : closer.EndsIn d)
    {depth : Nat} {s t : List Char} (h : closing? closer depth (s ++ t) = none) :
    closing? closer depth s = none := by
  fun_induction closing? closer depth s with
  | case1 depth s n hn =>
    have hn' : (if depth = 0 then closer.length? (s ++ t) else none) = some n := by
      split at hn
      · rename_i hdepth
        rw [if_pos hdepth, Closer.length?_append hn]
      · cases hn
    rw [closing?_of_closer hn'] at h
    cases h
  | case2 => rfl
  | case3 depth c s n piece hnone =>
    rename_i ih
    have hnone' : (if depth = 0 then closer.length? (c :: (s ++ t)) else none) = none := by
      cases hsome : if depth = 0 then closer.length? (c :: (s ++ t)) else none with
      | none => rfl
      | some k =>
        rw [List.cons_append, closing?_of_closer hsome] at h
        cases h
    rw [List.cons_append, closing?_cons hnone', Option.map_eq_none_iff] at h
    rw [Option.map_eq_none_iff]
    by_cases hle : closer.passed c (s ++ t) ≤ s.length
    · have hpassed : closer.passed c (s ++ t) = n := (Closer.passed_of_append hle).symm
      rw [hpassed] at h hle
      rw [List.take_append_of_le_length hle, List.drop_append_of_le_length hle] at h
      exact ih h
    · cases hcut : closing? closer (depthAfter depth piece) (s.drop n) with
      | none => rfl
      | some cut =>
        have hd := mem_of_closing? hends hcut
        exact absurd (List.mem_of_mem_drop hd)
          (Closer.not_mem_of_passed hends (Nat.lt_of_not_le hle))

theorem endsIn_environment {name : List Char} (h : '\x7d' ∉ name) :
    (Closer.environment name).EndsIn '\x7d' := by
  rintro mark ⟨blanks, hblanks, rfl⟩
  refine ⟨"\\end".toList ++ blanks ++ '\x7b' :: name, by simp [braced], ?_⟩
  have hend : ∀ l : List Char, ("\\end".toList ++ l).tail = ['e', 'n', 'd'] ++ l := fun _ => rfl
  rw [List.append_assoc, hend]
  simp only [List.mem_append, List.mem_cons, List.not_mem_nil, or_false, not_or]
  refine ⟨by decide, fun hmem => ?_, by decide, h⟩
  exact absurd (hblanks _ hmem) (by decide)

theorem endsIn_usual {opener : String} (h : opener ∈ openers {}) :
    ∃ closer display d, opening {} opener = .math closer display ∧
      (Closer.delimiter closer).EndsIn d := by
  have hmem : opener ∈ ["$", "\\(", "$$", "\\["] := List.mem_mergeSort.1 h
  simp only [List.mem_cons, List.not_mem_nil, or_false] at hmem
  rcases hmem with rfl | rfl | rfl | rfl
  · exact ⟨['$'], false, '$', by decide, fun mark hmark => ⟨[], hmark, by simp⟩⟩
  · exact ⟨['\\', ')'], false, ')', by decide, fun mark hmark => ⟨['\\'], hmark, by simp⟩⟩
  · exact ⟨['$', '$'], true, '$', by decide, fun mark hmark => ⟨['$'], hmark, by simp⟩⟩
  · exact ⟨['\\', ']'], true, ']', by decide, fun mark hmark => ⟨['\\'], hmark, by simp⟩⟩

/-! ### Openings -/

section

variable {delims : Delimiters} {s t : List Char} {o : Opening} {more : Nat}

theorem delimiterAt?_eq_none_of_append (h : delims.delimiterAt? (s ++ t) = none) :
    delims.delimiterAt? s = none := by
  simp only [delimiterAt?, Option.map_eq_none_iff, List.find?_eq_none, Bool.and_eq_true,
    decide_eq_true_eq, List.isPrefixOf_iff_prefix, not_and] at h ⊢
  exact fun opener hmem hne hprefix => h opener hmem hne (List.IsPrefix.trans hprefix (List.prefix_append s t))

theorem delimiterAt?_of_append (h : delims.delimiterAt? (s ++ t) = some (o, more))
    (hlt : more < s.length) : delims.delimiterAt? s = some (o, more) := by
  obtain ⟨opener, hfind, heq⟩ := Option.map_eq_some_iff.1 h
  obtain ⟨hfit, before, after, hopeners, hbefore⟩ := List.find?_eq_some_iff_append.1 hfind
  simp only [Bool.and_eq_true, decide_eq_true_eq, List.isPrefixOf_iff_prefix] at hfit
  refine Option.map_eq_some_iff.2 ⟨opener, List.find?_eq_some_iff_append.2
    ⟨?_, before, after, hopeners, fun other hother => ?_⟩, heq⟩
  · simp only [Bool.and_eq_true, decide_eq_true_eq, List.isPrefixOf_iff_prefix]
    refine ⟨hfit.1, List.prefix_of_prefix_length_le hfit.2 (List.prefix_append s t) ?_⟩
    obtain ⟨-, rfl⟩ := Prod.mk.inj heq
    have hlen : opener.toList.length = opener.length := rfl
    omega
  · have hnot := hbefore other hother
    simp only [Bool.not_eq_true', Bool.eq_false_iff, ne_eq, Bool.and_eq_true, decide_eq_true_eq,
      List.isPrefixOf_iff_prefix, not_and] at hnot ⊢
    exact fun hne hprefix => hnot hne (List.IsPrefix.trans hprefix (List.prefix_append s t))

theorem environmentAt?_of_spelled {name blanks : List Char} (hname : '\x7d' ∉ name)
    (hblanks : ∀ b ∈ blanks, Text.isBlank b = true) (tail : List Char) :
    environmentAt? ("\\begin".toList ++ blanks ++ braced name ++ tail) =
      some (.environment name, 5 + blanks.length + (braced name).length) := by
  have hbegin : Text.after? "\\begin".toList
      ("\\begin".toList ++ blanks ++ braced name ++ tail) = some (blanks ++ (braced name ++ tail)) :=
    Text.after?_eq_some.2 (by simp)
  have hinside : (name ++ '\x7d' :: tail).takeWhile (· ≠ '\x7d') = name := by
    have hall : ∀ c ∈ name, decide (c ≠ '\x7d') = true := fun c hc =>
      decide_eq_true fun heq => hname (heq ▸ hc)
    rw [List.takeWhile_append_of_pos hall, List.takeWhile_cons, if_neg (by simp), List.append_nil]
  have hbraced : braced name ++ tail = '\x7b' :: (name ++ '\x7d' :: tail) := by simp [braced]
  have hlt : name.length < (name ++ '\x7d' :: tail).length := by simp
  rw [environmentAt?, hbegin]
  simp only [dropWhile_blanks hblanks, takeWhile_blanks hblanks]
  rw [hbraced]
  simp only [hinside, hlt, decide_true, Bool.and_self, if_true]

theorem environmentAt?_append (h : environmentAt? s = some (o, more)) (t : List Char) :
    environmentAt? (s ++ t) = some (o, more) := by
  cases s with
  | nil => cases h
  | cons c s =>
    obtain ⟨name, blanks, rfl, hname, hblanks, hspelled, hle⟩ := environmentAt?_eq_some h
    have hwhole : c :: s = "\\begin".toList ++ blanks ++ braced name ++ s.drop more := by
      rw [← hspelled, List.cons_append, List.take_append_drop]
    rw [hwhole, environmentAt?_of_spelled hname hblanks] at h
    rw [hwhole, List.append_assoc _ _ t, environmentAt?_of_spelled hname hblanks, h]

theorem environmentAt?_eq_none_of_append (h : environmentAt? (s ++ t) = none) :
    environmentAt? s = none := by
  cases hs : environmentAt? s with
  | none => rfl
  | some found => rw [@environmentAt?_append _ found.1 found.2 hs t] at h; cases h

theorem environmentAt?_of_append (h : environmentAt? (s ++ t) = some (o, more))
    (hlt : more < s.length) : environmentAt? s = some (o, more) := by
  cases s with
  | nil => cases hlt
  | cons c s =>
    rw [List.cons_append] at h
    obtain ⟨name, blanks, rfl, hname, hblanks, hspelled, hle⟩ := environmentAt?_eq_some h
    rw [List.take_append_of_le_length (Nat.le_of_lt_succ hlt)] at hspelled
    have hwhole : c :: s = "\\begin".toList ++ blanks ++ braced name ++ s.drop more := by
      rw [← hspelled, List.cons_append, List.take_append_drop]
    have hpart := environmentAt?_of_spelled hname hblanks (s.drop more)
    rw [← hwhole] at hpart
    rw [← List.cons_append, environmentAt?_append hpart t] at h
    rw [hpart, h]

theorem escapeAt?_iff : escapeAt? s = some (o, more) ↔
    (o = .escape ∧ more = 1) ∧ (['\\', '\\'] <+: s ∨ ['\\', '$'] <+: s) := by
  rw [escapeAt?.eq_def]
  split
  · simp [eq_comm]
  · simp [eq_comm]
  · rename_i hbackslash hdollar
    simp only [reduceCtorEq, false_iff, not_and, not_or]
    rintro -
    constructor
    · rintro ⟨tail, htail⟩
      exact hbackslash tail htail.symm
    · rintro ⟨tail, htail⟩
      exact hdollar tail htail.symm

theorem escapeAt?_eq_none_of_append (h : escapeAt? (s ++ t) = none) : escapeAt? s = none := by
  cases hs : escapeAt? s with
  | none => rfl
  | some found =>
    obtain ⟨hfound, hprefix⟩ := (@escapeAt?_iff _ found.1 found.2).1 hs
    have hlonger := escapeAt?_iff (s := s ++ t).2 ⟨hfound, hprefix.imp
      (fun hp => hp.trans (List.prefix_append s t)) fun hp => hp.trans (List.prefix_append s t)⟩
    rw [h] at hlonger
    cases hlonger

theorem escapeAt?_of_append (h : escapeAt? (s ++ t) = some (o, more)) (hlt : more < s.length) :
    escapeAt? s = some (o, more) := by
  obtain ⟨⟨rfl, rfl⟩, hprefix⟩ := escapeAt?_iff.1 h
  refine escapeAt?_iff.2 ⟨⟨rfl, rfl⟩, hprefix.imp (fun hp => ?_) fun hp => ?_⟩
  · exact List.prefix_of_prefix_length_le hp (List.prefix_append s t) hlt
  · exact List.prefix_of_prefix_length_le hp (List.prefix_append s t) hlt

/-- What a search that is switched on or off does not find in a text, it does not find in a part. -/
theorem switched_eq_none_of_append {on : Prop} [Decidable on]
    {find? : List Char → Option (Opening × Nat)}
    (hfind : find? (s ++ t) = none → find? s = none)
    (h : (if on then find? (s ++ t) else none) = none) : (if on then find? s else none) = none := by
  split at h
  · rename_i hon
    rw [if_pos hon, hfind h]
  · rename_i hoff
    rw [if_neg hoff]

theorem opening?_eq_none_of_append (h : delims.opening? (s ++ t) = none) :
    delims.opening? s = none := by
  rw [opening?] at h ⊢
  split at h
  · cases h
  · rename_i hdelimiter
    split at h
    · cases h
    · rename_i henvironment
      rw [delimiterAt?_eq_none_of_append hdelimiter]
      simp only [switched_eq_none_of_append environmentAt?_eq_none_of_append henvironment]
      exact switched_eq_none_of_append escapeAt?_eq_none_of_append h

/-- An opening that fits into a part of a text begins there. -/
theorem opening?_of_append (h : delims.opening? (s ++ t) = some (o, more)) (hlt : more < s.length) :
    delims.opening? s = some (o, more) := by
  rw [opening?] at h ⊢
  split at h
  · rename_i found hdelimiter
    cases h
    rw [delimiterAt?_of_append hdelimiter hlt]
  · rename_i hdelimiter
    rw [delimiterAt?_eq_none_of_append hdelimiter]
    split at h
    · rename_i found henvironment
      cases h
      split at henvironment
      · rename_i hon
        simp only [if_pos hon, environmentAt?_of_append henvironment hlt]
      · cases henvironment
    · rename_i henvironment
      simp only [switched_eq_none_of_append environmentAt?_eq_none_of_append henvironment]
      split at h
      · rename_i hon
        rw [if_pos hon, escapeAt?_of_append h hlt]
      · cases h

end

theorem opening?_of_drop {delims : Delimiters} {c : Char} {s part rest : List Char} {o : Opening}
    {more : Nat} (h : delims.opening? (c :: s) = some (o, more))
    (hpart : s.drop more = part ++ rest) :
    c :: s = c :: (s.take more ++ part) ++ rest ∧ (s.take more).length = more ∧
      delims.opening? (c :: (s.take more ++ part)) = some (o, more) := by
  have hlen : (s.take more).length = more := List.length_take_of_le (opening?_eq_some h).1
  have hwhole : c :: s = c :: (s.take more ++ part) ++ rest := by
    rw [List.cons_append, List.append_assoc, ← hpart, List.take_append_drop]
  refine ⟨hwhole, hlen, opening?_of_append (t := rest) (hwhole ▸ h) ?_⟩
  rw [List.length_cons, List.length_append, hlen]
  omega

/-! ### The search -/

theorem seen?_of_append {string start : Nat} {spelled s t rest : List Char} {o : Opening}
    {x : Sighting} (h : seen? string start spelled s o = some (x, rest ++ t)) :
    ∃ part, s = part ++ t ∧ seen? string start spelled part o = some (x, rest) := by
  obtain ⟨closer, body, mark, hled⟩ := leads_of_seen? h
  refine ⟨body ++ mark ++ rest, ?_, hled.again (closing?_of_append hled.cuts rfl)⟩
  rw [closing?_eq_some hled.cuts, List.append_assoc _ rest]

theorem seen?_eq_none_of_append {string start : Nat} {c : Char} {s spelled t u : List Char}
    {o : Opening} {more : Nat} (hopen : opening? {} (c :: s) = some (o, more))
    (h : seen? string start spelled (u ++ t) o = none) : seen? string start spelled u o = none := by
  obtain ⟨-, hkind⟩ := opening?_eq_some hopen
  rcases hkind with ⟨opener, hmem, rfl, -⟩ | ⟨name, blanks, rfl, hname, -, -⟩ | rfl
  · obtain ⟨closer, display, d, hopening, hends⟩ := endsIn_usual hmem
    rw [hopening, seen?, Option.map_eq_none_iff] at h ⊢
    exact closing?_eq_none_of_append hends h
  · rw [seen?, Option.map_eq_none_iff] at h ⊢
    exact closing?_eq_none_of_append (endsIn_environment hname) h
  · rfl

/-- The search in a text that ends at a place to which it comes. -/
theorem Scans.truncate {string start stop : Nat} {s rest : List Char} {found : List Sighting}
    (h : Scans {} string start s found stop rest) :
    ∃ part, s = part ++ rest ∧ Scans {} string start part found stop [] := by
  induction h with
  | refl start s => exact ⟨[], rfl, .refl start []⟩
  | @plain start stop c s rest found hnone next ih =>
    obtain ⟨part, rfl, hscan⟩ := ih
    exact ⟨c :: part, rfl, .plain (opening?_eq_none_of_append (s := c :: part) hnone) hscan⟩
  | @unclosed start stop more c s rest o found hopen hunseen next ih =>
    obtain ⟨part, hpart, hscan⟩ := ih
    rw [hpart] at hunseen
    have hunseen' := seen?_eq_none_of_append hopen hunseen
    obtain ⟨hwhole, hlen, hopen'⟩ := opening?_of_drop hopen hpart
    refine ⟨c :: (s.take more ++ part), hwhole, .unclosed hopen' ?_ ?_⟩
    · rw [List.take_left' hlen, List.drop_left' hlen]
      exact hunseen'
    · rw [List.drop_left' hlen]
      exact hscan
  | @seen start stop more c s others rest o x found hopen hseen next ih =>
    obtain ⟨later, rfl, hscan⟩ := ih
    obtain ⟨part, hpart, hseen'⟩ := seen?_of_append hseen
    obtain ⟨hwhole, hlen, hopen'⟩ := opening?_of_drop hopen hpart
    refine ⟨c :: (s.take more ++ part), hwhole, .seen hopen' ?_ hscan⟩
    rw [List.take_left' hlen, List.drop_left' hlen]
    exact hseen'

/-! ### Parts of a text -/

theorem seen?_content (string start string' start' : Nat) (spelled s : List Char) (o : Opening) :
    (seen? string start spelled s o).map (fun p => (p.1.content, p.2)) =
      (seen? string' start' spelled s o).map fun p => (p.1.content, p.2) := by
  cases o with
  | escape => rfl
  | math closer display =>
    rw [seen?, seen?, Option.map_map, Option.map_map]
    rfl
  | environment name =>
    rw [seen?, seen?, Option.map_map, Option.map_map]
    rfl

/-- The search sees the same in a text wherever that stands. -/
theorem Scans.moved {delims : Delimiters} {string start stop : Nat} {s rest : List Char}
    {found : List Sighting} (h : Scans delims string start s found stop rest)
    (string' start' : Nat) :
    ∃ found' stop', Scans delims string' start' s found' stop' rest ∧
      found'.map Sighting.content = found.map Sighting.content := by
  induction h generalizing start' with
  | refl start s => exact ⟨[], start', .refl start' s, rfl⟩
  | plain hnone next ih =>
    obtain ⟨found', stop', hscan, hcontent⟩ := ih (start' + 1)
    exact ⟨found', stop', .plain hnone hscan, hcontent⟩
  | @unclosed start stop more c s rest o found hopen hunseen next ih =>
    obtain ⟨found', stop', hscan, hcontent⟩ := ih (start' + 1 + more)
    refine ⟨found', stop', .unclosed hopen ?_ hscan, hcontent⟩
    have hsame := seen?_content string start string' start' (c :: s.take more) (s.drop more) o
    rw [hunseen, Option.map_none, eq_comm, Option.map_eq_none_iff] at hsame
    exact hsame
  | @seen start stop more c s others rest o x found hopen hseen next ih =>
    have hsame := seen?_content string start string' start' (c :: s.take more) (s.drop more) o
    rw [hseen, Option.map_some, eq_comm] at hsame
    obtain ⟨⟨x', others'⟩, hseen', heq⟩ := Option.map_eq_some_iff.1 hsame
    obtain ⟨hx, rfl⟩ := Prod.mk.inj heq
    obtain ⟨found', stop', hscan, hcontent⟩ := ih x'.stop.toNat
    exact ⟨x' :: found', stop', .seen hopen hseen' hscan, congrArg₂ List.cons hx hcontent⟩

theorem findFrom_content (delims : Delimiters) (string start string' start' : Nat)
    (s : List Char) :
    (delims.findFrom string' start' s).map Sighting.content =
      (delims.findFrom string start s).map Sighting.content := by
  obtain ⟨found', stop', hscan, hcontent⟩ :=
    (scans_findFrom delims string start s).moved string' start'
  rw [hscan.findFrom_end, hcontent]

/-- The search comes to the beginning of everything it sees, and goes on behind it. -/
theorem Scans.split {delims : Delimiters} {string start stop : Nat} {s rest : List Char}
    {found : List Sighting} (h : Scans delims string start s found stop rest)
    {earlier later : List Sighting} {x : Sighting} (hfound : found = earlier ++ x :: later) :
    ∃ others, Scans delims string start s earlier x.start.toNat (x.spelling ++ others) ∧
      0 ≤ x.start ∧ x.stop = x.start + (x.spelling.length : Int) ∧
      Scans delims string x.stop.toNat others later stop rest := by
  induction h generalizing earlier with
  | refl => simp at hfound
  | plain hnone next ih =>
    obtain ⟨others, hscan, hbounds⟩ := ih hfound
    exact ⟨others, .plain hnone hscan, hbounds⟩
  | unclosed hopen hunseen next ih =>
    obtain ⟨others, hscan, hbounds⟩ := ih hfound
    exact ⟨others, .unclosed hopen hunseen hscan, hbounds⟩
  | @seen start stop more c s others rest o y found hopen hseen next ih =>
    cases earlier with
    | nil =>
      obtain ⟨rfl, rfl⟩ := List.cons.inj hfound
      obtain ⟨-, hstart, hspells, hstop⟩ := seen?_eq_some hseen
      rw [List.cons_append, List.take_append_drop] at hspells
      refine ⟨others, ?_, by omega, by omega, next⟩
      rw [hstart, Int.toNat_natCast, ← hspells]
      exact .refl start (c :: s)
    | cons z earlier =>
      obtain ⟨rfl, hrest⟩ := List.cons.inj hfound
      obtain ⟨others', hscan, hbounds⟩ := ih hrest
      exact ⟨others', .seen hopen hseen hscan, hbounds⟩

/-- The parts of a text that begins at the offset `i` in front of, between and behind stretches
that are left out. -/
def parts (i : Nat) (s : List Char) : List (Nat × Nat) → List (List Char)
  | [] => [s]
  | (start, stop) :: rest => s.take (start - i) :: parts stop (s.drop (stop - i)) rest

/-- What the search saw of a text, without some of it, is what it sees in the parts that are left
when the stretches of those are left out. -/
theorem parts_findFrom (out : Sighting → Bool) (string start : Nat) (s : List Char) :
    ((parts start s (((findFrom {} string start s).filter out).map Sighting.stretch)).flatMap
        fun part => (findFrom {} 0 0 part).map Sighting.content) =
      ((findFrom {} string start s).filter fun x => !out x).map Sighting.content := by
  generalize hleft : (findFrom {} string start s).filter out = left
  induction left generalizing start s with
  | nil =>
    have hall : ∀ x ∈ findFrom {} string start s, (!out x) = true := fun x hx => by
      rw [Bool.not_eq_true', ← Bool.not_eq_true]
      exact List.filter_eq_nil_iff.1 hleft x hx
    rw [List.filter_eq_self.2 hall, List.map_nil, parts, List.flatMap_singleton,
      findFrom_content {} string start]
  | cons x left ih =>
    obtain ⟨earlier, later, hfound, hearlier, hx, hlater⟩ := List.filter_eq_cons_iff.1 hleft
    obtain ⟨others, hscan, hpos, hstop, hnext⟩ := (scans_findFrom {} string start s).split hfound
    obtain ⟨part, hpart, htruncated⟩ := hscan.truncate
    obtain ⟨t, ht, hlen, -⟩ := hscan.spec
    have hnext' : findFrom {} string x.stop.toNat others = later := hnext.findFrom_end
    have hpart' : findFrom {} string start part = earlier := htruncated.findFrom_end
    obtain rfl : t = part := List.append_cancel_right (ht.symm.trans hpart)
    have htake : s.take (x.start.toNat - start) = t := by
      rw [ht, List.take_left' (by omega)]
    have hdrop : s.drop (x.stop.toNat - start) = others := by
      rw [ht, ← List.append_assoc, List.drop_left' (by rw [List.length_append]; omega)]
    have hkept : ∀ y ∈ earlier, (!out y) = true := fun y hy => by
      rw [Bool.not_eq_true', ← Bool.not_eq_true]
      exact hearlier y hy
    have hrest := ih x.stop.toNat others (hnext' ▸ hlater)
    rw [hnext'] at hrest
    rw [List.map_cons, Sighting.stretch, parts, List.flatMap_cons, htake, hdrop, hrest, hfound,
      List.filter_append, List.filter_eq_self.2 hkept, List.filter_cons_of_neg (by simp [hx]),
      List.map_append, findFrom_content {} string start, hpart']

end Delimiters

end Formulary
