import Formulary.Proofs.Delimiters.Braces
import Formulary.Proofs.Delimiters.TextParts
import Formulary.Proofs.Tokens.Decomposition

/-! # What a search for delimiters admits

A closer counts at an offset of the text behind its opener if it is spelled there, not inside a pair
of a backslash and the character after it, and all braces before it are closed (`Closer.ClosesAt`).
The search cuts the text at the first such offset, and nowhere only if there is none
(`closing?_first`).

So everything that is found ends at the first closer that counts, and an opener that is left over
has none (`find_admits`).  An opener is left over if nothing that is found covers it, no backslash
takes its beginning, and it is not inside an earlier one that is left over (`IsStray`): the search
comes to every such place, since it jumps over items, escapes and openers without a closer only
(`Scans.closes_stray`). -/

namespace Formulary

namespace Delimiters

variable {closer : Closer} {depth : Nat} {c : Char} {s rest : List Char}

/-! ### Closers -/

/-- The closer is spelled at an offset of a text, outside pairs of a backslash and the character
after it, where no brace is open, if `depth` are open at the beginning. -/
structure Closer.ClosesAt (closer : Closer) (depth : Nat) (s : List Char) (q : Nat)
    (mark : List Char) : Prop where
  spelled : closer.IsSpelled mark
  here : mark <+: s.drop q
  outside : bracesAfter? depth (s.take q) = some 0

/-- If the closer ends an environment, the name of that has no opening brace and no backslash. -/
def Closer.IsSimple (closer : Closer) : Prop :=
  ∀ name, closer = .environment name → '\x7b' ∉ name ∧ '\\' ∉ name

theorem isPlain_of_isBlank (h : Text.isBlank c = true) : IsPlain c := by
  refine ⟨?_, ?_, ?_⟩ <;> (rintro rfl; exact absurd h (by decide))

theorem Closer.isTame_environment {name : List Char} (h : ∀ c ∈ name, IsPlain c) :
    (environment name).IsTame where
  ne_nil := by
    rintro mark ⟨blanks, -, rfl⟩
    exact List.cons_ne_nil _ _
  head := by
    rintro mark ⟨blanks, -, rfl⟩ hhead
    exact absurd (Option.some.inj hhead) (by decide)
  braces := by
    rintro mark ⟨blanks, hblanks, rfl⟩ depth rest
    have hend : ∀ l : List Char, "\\end".toList ++ l = '\\' :: 'e' :: (['n', 'd'] ++ l) := fun _ => rfl
    have hplain : ∀ c ∈ ['n', 'd'], IsPlain c := by
      refine List.forall_mem_cons.2 ⟨by decide, List.forall_mem_cons.2 ⟨by decide, ?_⟩⟩
      exact List.forall_mem_nil _
    rw [List.append_assoc, List.append_assoc, hend, bracesAfter?_hidden, bracesAfter?_append hplain,
      bracesAfter?_append fun c hc => isPlain_of_isBlank (hblanks c hc), braced, List.cons_append,
      bracesAfter?_cons (by decide), List.append_assoc, bracesAfter?_append h, List.singleton_append,
      bracesAfter?_cons (by decide)]
    simp [depthAfter]
  depth := by
    rintro mark ⟨blanks, -, rfl⟩ depth
    rw [depthAfter, if_neg (by simp), if_neg (by simp)]
  inner := by
    rintro mark ⟨blanks, hblanks, rfl⟩
    have hlast : "\\end".toList ++ blanks ++ braced name =
        "\\end".toList ++ blanks ++ '\x7b' :: name ++ ['\x7d'] := by simp [braced]
    rw [hlast, List.dropLast_concat]
    simp only [List.mem_append, List.mem_cons, not_or]
    refine ⟨⟨by decide, fun hmem => ?_⟩, by decide, fun hmem => (h _ hmem).2.2 rfl⟩
    exact absurd (hblanks _ hmem) (by decide)

theorem le_bracesAfter? {n : Nat} (hs : '\x7d' ∉ s) (h : bracesAfter? depth s = some n) :
    depth ≤ n := by
  fun_induction bracesAfter? depth s with
  | case1 depth =>
    cases h
    exact Nat.le_refl _
  | case2 => cases h
  | case3 depth d rest ih =>
    exact ih (fun hmem => hs (List.mem_cons_of_mem _ (List.mem_cons_of_mem _ hmem))) h
  | case4 depth c rest hc ih =>
    have hle := ih (fun hmem => hs (List.mem_cons_of_mem _ hmem)) h
    have hclose : ¬[c] = ['\x7d'] := fun heq =>
      hs ((List.cons.inj heq).1 ▸ List.mem_cons_self ..)
    rw [depthAfter, if_neg hclose] at hle
    split at hle <;> omega

/-- No closer counts inside what the search passes over in one go. -/
theorem Closer.IsTame.not_closesAt (h : closer.IsTame)
    (hnone : (if depth = 0 then closer.length? (c :: rest) else none) = none) {q : Nat}
    (hq : q ≤ closer.passed c rest) (mark : List Char) : ¬closer.ClosesAt depth (c :: rest) q mark := by
  rintro ⟨hspelled, ⟨after, hafter⟩, houtside⟩
  cases q with
  | zero =>
    obtain rfl : depth = 0 := Option.some.inj houtside
    rw [if_pos rfl, ← List.drop_zero (l := c :: rest), ← hafter,
      Closer.length?_of_isSpelled hspelled] at hnone
    cases hnone
  | succ q =>
    rw [List.take_succ_cons] at houtside
    cases hlength : closer.length? (c :: rest) with
    | none =>
      -- a backslash and what it takes
      rw [passed.eq_def, hlength] at hq
      cases rest with
      | nil => exact absurd hq (by simp)
      | cons d rest =>
        simp only at hq
        split at hq
        · rename_i htakes
          simp only [Bool.and_eq_true, decide_eq_true_eq] at htakes
          obtain rfl : q = 0 := by omega
          rw [htakes.1] at houtside
          cases houtside
        · exact absurd hq (by simp)
    | some m =>
      -- a closer inside braces
      have hdepth : depth ≠ 0 := fun hzero => by
        rw [if_pos hzero, hlength] at hnone
        cases hnone
      obtain ⟨hle, hmark⟩ := Closer.length?_eq_some hlength
      obtain ⟨m, rfl⟩ : ∃ k, m = k + 1 :=
        Nat.exists_eq_succ_of_ne_zero fun hzero => h.ne_nil hmark (by rw [hzero]; rfl)
      have hpassed : closer.passed c rest = m := by rw [passed.eq_def, hlength]
      have hpart : c :: rest.take q = (((c :: rest).take (m + 1)).dropLast).take (q + 1) := by
        rw [List.dropLast_eq_take, List.length_take_of_le hle, Nat.add_sub_cancel, List.take_take,
          List.take_take, ← List.take_succ_cons]
        congr 1
        omega
      have hopen : '\x7d' ∉ c :: rest.take q := fun hmem =>
        h.inner hmark (List.mem_of_mem_take (hpart ▸ hmem))
      exact hdepth (Nat.le_zero.1 (le_bracesAfter? hopen houtside))

/-- Behind what the search passes over in one go the closer counts where it did. -/
theorem Closer.IsTame.closesAt_skip (h : closer.IsTame) {q : Nat} {mark : List Char} :
    closer.ClosesAt depth (c :: rest) (closer.passed c rest + 1 + q) mark ↔
      closer.ClosesAt (depthAfter depth (c :: rest.take (closer.passed c rest)))
        (rest.drop (closer.passed c rest)) q mark := by
  have hlen : (c :: rest.take (closer.passed c rest)).length = closer.passed c rest + 1 := by
    rw [List.length_cons, List.length_take_of_le (passed_le ..)]
  have hwhole : c :: rest =
      (c :: rest.take (closer.passed c rest)) ++ rest.drop (closer.passed c rest) := by
    rw [List.cons_append, List.take_append_drop]
  have hdrop : (c :: rest).drop (closer.passed c rest + 1 + q) =
      (rest.drop (closer.passed c rest)).drop q := by
    rw [Nat.add_right_comm, List.drop_succ_cons, List.drop_drop]
  have htake : (c :: rest).take (closer.passed c rest + 1 + q) =
      c :: rest.take (closer.passed c rest) ++ (rest.drop (closer.passed c rest)).take q := by
    conv_lhs => rw [hwhole, ← hlen, List.take_length_add_append]
  have hreads : ∀ {after : List Char}, closer.IsSpelled mark →
      mark ++ after = (rest.drop (closer.passed c rest)).drop q →
      bracesAfter? depth ((c :: rest).take (closer.passed c rest + 1 + q)) =
        bracesAfter? (depthAfter depth (c :: rest.take (closer.passed c rest)))
          ((rest.drop (closer.passed c rest)).take q) := by
    intro after hmark hafter
    rw [htake]
    refine @piece_braces _ h _ _ _ _ _ after ?_ hmark
    rw [List.append_assoc, hafter, List.take_append_drop]
  constructor
  · rintro ⟨hspelled, ⟨after, hafter⟩, houtside⟩
    rw [hdrop] at hafter
    exact ⟨hspelled, ⟨after, hafter⟩, hreads hspelled hafter ▸ houtside⟩
  · rintro ⟨hspelled, ⟨after, hafter⟩, houtside⟩
    exact ⟨hspelled, hdrop ▸ ⟨after, hafter⟩, (hreads hspelled hafter).trans houtside⟩

/-- The search for a closer cuts the text at the first one that counts, if there is one. -/
theorem closing?_first (h : closer.IsTame) (depth : Nat) (s : List Char) :
    (∀ cut, closing? closer depth s = some cut →
      closer.ClosesAt depth s cut.body.length cut.mark ∧
        ∀ q < cut.body.length, ∀ mark, ¬closer.ClosesAt depth s q mark) ∧
    (closing? closer depth s = none → ∀ q mark, ¬closer.ClosesAt depth s q mark) := by
  have hfree : ∀ (depth : Nat) (c : Char) (rest : List Char),
      (if depth = 0 then closer.length? (c :: rest) else none) = none → ∀ q mark,
      closer.ClosesAt depth (c :: rest) q mark → ∃ k, q = closer.passed c rest + 1 + k ∧
        closer.ClosesAt (depthAfter depth (c :: rest.take (closer.passed c rest)))
          (rest.drop (closer.passed c rest)) k mark := by
    intro depth c rest hnone q mark hq
    obtain ⟨k, rfl⟩ : ∃ k, q = closer.passed c rest + 1 + k :=
      Nat.exists_eq_add_of_le (Nat.lt_of_not_le fun hle => h.not_closesAt hnone hle mark hq)
    exact ⟨k, rfl, h.closesAt_skip.1 hq⟩
  fun_induction closing? closer depth s with
  | case1 depth s n hn =>
    refine ⟨fun cut hcut => ?_, fun hcut => ?_⟩
    · cases hcut
      split at hn
      · rename_i hdepth
        obtain ⟨-, hspelled⟩ := Closer.length?_eq_some hn
        exact ⟨⟨hspelled, List.take_prefix .., by rw [hdepth]; rfl⟩, fun q hq => absurd hq (by simp)⟩
      · cases hn
    · cases hcut
  | case2 depth =>
    refine ⟨fun cut hcut => (by cases hcut), fun _ q mark hq => ?_⟩
    have hnil : mark = [] := List.prefix_nil.1 (List.drop_nil ▸ hq.here)
    exact h.ne_nil hq.spelled hnil
  | case3 depth c rest n piece hnone ih =>
    have hlen : piece.length = n + 1 := by
      rw [List.length_cons, List.length_take_of_le (Closer.passed_le ..)]
    refine ⟨fun cut hcut => ?_, fun hcut q mark hq => ?_⟩
    · obtain ⟨inner, hinner, rfl⟩ := Option.map_eq_some_iff.1 hcut
      obtain ⟨hcloses, hbefore⟩ := ih.1 inner hinner
      refine ⟨?_, fun q hlt mark hq => ?_⟩
      · rw [List.length_append, hlen]
        exact h.closesAt_skip.2 hcloses
      · obtain ⟨k, rfl, hk⟩ := hfree depth c rest hnone q mark hq
        refine hbefore k ?_ mark hk
        rw [List.length_append, hlen] at hlt
        exact Nat.lt_of_add_lt_add_left hlt
    · obtain ⟨k, -, hk⟩ := hfree depth c rest hnone q mark hq
      exact ih.2 (Option.map_eq_none_iff.1 hcut) k mark hk

/-! ### Openers -/

/-- A text begins with an opener that the closer belongs to: with a usual delimiter, the longest one
that fits, or with the beginning of an environment. -/
inductive OpensWith (s : List Char) : List Char → Closer → Prop
  | delimiter {opener closer : String} {display : Bool}
    (pair : ((opener, closer), display) ∈ pairs {}) (here : opener.toList <+: s)
    (longest : ∀ other ∈ pairs {}, other.1.1.toList <+: s → other.1.1.length ≤ opener.length) :
    OpensWith s opener.toList (.delimiter closer.toList)
  | environment {blanks name : List Char} (hblanks : ∀ b ∈ blanks, Text.isBlank b = true)
    (hname : '\x7d' ∉ name) (here : "\\begin".toList ++ blanks ++ braced name <+: s) :
    OpensWith s ("\\begin".toList ++ blanks ++ braced name) (.environment name)

theorem opening_of_mem_pairs : ∀ pair ∈ pairs {},
    opening {} pair.1.1 = .math pair.1.2.toList pair.2 ∧ pair.1.1 ∈ openers {} := by
  rw [openers_usual]
  decide

theorem find?_openers {opener : String} :
    (openers {}).find? (fun o => o ≠ "" && o.toList.isPrefixOf s) = some opener ↔
      opener ∈ openers {} ∧ opener.toList <+: s ∧
        ∀ other ∈ openers {}, other.toList <+: s → other.length ≤ opener.length := by
  have hne : ∀ o ∈ openers {}, o ≠ "" := by
    rw [openers_usual]
    decide
  have hfits : ∀ o ∈ openers {}, (o ≠ "" && o.toList.isPrefixOf s) = true ↔ o.toList <+: s := by
    intro o ho
    simp [hne o ho]
  have hsorted : (openers {}).Pairwise fun a b => b.length ≤ a.length := by
    rw [openers_usual]
    decide
  have hlongest : ∀ {found : String},
      (openers {}).find? (fun o => o ≠ "" && o.toList.isPrefixOf s) = some found →
      ∀ other ∈ openers {}, other.toList <+: s → other.length ≤ found.length := by
    intro found hfound other hother hfit
    obtain ⟨-, before, after, hsplit, hbefore⟩ := List.find?_eq_some_iff_append.1 hfound
    rw [hsplit] at hsorted
    have hmem := hsplit ▸ hother
    rcases List.mem_append.1 hmem with hmem | hmem
    · have hnot := hbefore other hmem
      rw [(hfits other hother).2 hfit] at hnot
      cases hnot
    · rcases List.mem_cons.1 hmem with rfl | hmem
      · exact Nat.le_refl _
      · exact (List.pairwise_cons.1 (List.pairwise_append.1 hsorted).2.1).1 other hmem
  constructor
  · intro h
    have hmem := List.mem_of_find?_eq_some h
    have hfit := List.find?_some h
    exact ⟨hmem, (hfits _ hmem).1 hfit, hlongest h⟩
  · rintro ⟨hmem, hfit, hmax⟩
    have hsome : ((openers {}).find? fun o => o ≠ "" && o.toList.isPrefixOf s).isSome = true :=
      List.find?_isSome.2 ⟨opener, hmem, (hfits _ hmem).2 hfit⟩
    obtain ⟨found, hfound⟩ := Option.isSome_iff_exists.1 hsome
    have hmem' := List.mem_of_find?_eq_some hfound
    have hfit' := List.find?_some hfound
    have hfit' := (hfits _ hmem').1 hfit'
    have hlen : found.toList.length = opener.toList.length :=
      Nat.le_antisymm (hmax found hmem' hfit') (hlongest hfound opener hmem hfit)
    rw [hfound, ← String.toList_inj.1 ((List.prefix_of_prefix_length_le hfit' hfit
      (Nat.le_of_eq hlen)).eq_of_length hlen)]

theorem OpensWith.opening? {spelled : List Char} (h : OpensWith s spelled closer) :
    ∃ opening more, opening? {} s = some (opening, more) ∧ spelled.length = more + 1 ∧
      opening.closer? = some closer := by
  cases h with
  | @delimiter opener closer display pair here longest =>
    obtain ⟨hopening, hmem⟩ := opening_of_mem_pairs _ pair
    have hfound := find?_openers.2 ⟨hmem, here, fun other hother hfit => by
      obtain ⟨pair', hpair', rfl⟩ := List.mem_map.1 (List.mem_mergeSort.1 hother)
      exact longest pair' hpair' hfit⟩
    have hpos : ∀ o ∈ openers {}, 0 < o.toList.length := by
      rw [openers_usual]
      decide
    refine ⟨.math closer.toList display, opener.length - 1, ?_, ?_, rfl⟩
    · rw [Delimiters.opening?, delimiterAt?, hfound, Option.map_some, hopening]
    · exact (Nat.sub_add_cancel (hpos opener hmem)).symm
  | @environment blanks name hblanks hname here =>
    obtain ⟨tail, rfl⟩ := here
    have hdelimiter : delimiterAt? {} ("\\begin".toList ++ blanks ++ braced name ++ tail) = none := by
      rw [delimiterAt?, openers_usual]
      rfl
    refine ⟨.environment name, 5 + blanks.length + (braced name).length, ?_, ?_, rfl⟩
    · rw [Delimiters.opening?, hdelimiter]
      simp only [if_true, environmentAt?_of_spelled hname hblanks]
    · have hbegin : "\\begin".toList.length = 6 := rfl
      rw [List.length_append, List.length_append, hbegin]
      omega

/-- What the search sees is an opener or an escaped character. -/
theorem opensWith_of_opening? {opening : Opening} {more : Nat}
    (h : opening? {} (c :: s) = some (opening, more)) :
    (opening = .escape ∧ more = 1 ∧ (['\\', '\\'] <+: c :: s ∨ ['\\', '$'] <+: c :: s)) ∨
      ∃ closer, opening.closer? = some closer ∧ OpensWith (c :: s) (c :: s.take more) closer := by
  rw [Delimiters.opening?] at h
  split at h
  · rename_i found hfound
    cases h
    obtain ⟨opener, hfind, heq⟩ := Option.map_eq_some_iff.1 hfound
    obtain ⟨rfl, rfl⟩ := Prod.mk.inj heq
    obtain ⟨hmem, ⟨tail, htail⟩, hmax⟩ := find?_openers.1 hfind
    obtain ⟨⟨⟨opener, closer⟩, display⟩, hpair, rfl⟩ := List.mem_map.1 (List.mem_mergeSort.1 hmem)
    have hspelled : c :: s.take (opener.length - 1) = opener.toList := by
      cases hopener : opener.toList with
      | nil =>
        have hne : ∀ o ∈ openers {}, o.toList ≠ [] := by
          rw [openers_usual]
          decide
        exact absurd hopener (hne opener hmem)
      | cons d others =>
        have hlen : opener.length = others.length + 1 := congrArg List.length hopener
        rw [hopener, List.cons_append] at htail
        obtain ⟨rfl, rfl⟩ := List.cons.inj htail
        rw [hlen, Nat.add_sub_cancel, List.take_left]
    refine .inr ⟨.delimiter closer.toList, ?_, ?_⟩
    · rw [(opening_of_mem_pairs _ hpair).1]
      rfl
    · rw [hspelled]
      exact .delimiter hpair ⟨tail, htail⟩ fun other hother hfit =>
        hmax _ (opening_of_mem_pairs _ hother).2 hfit
  · split at h
    · rename_i found hfound
      cases h
      obtain ⟨name, blanks, rfl, hname, hblanks, hspelled, -⟩ := environmentAt?_eq_some hfound
      refine .inr ⟨.environment name, rfl, ?_⟩
      rw [hspelled]
      refine .environment hblanks hname ⟨s.drop more, ?_⟩
      rw [← hspelled, List.cons_append, List.take_append_drop]
    · obtain ⟨⟨rfl, rfl⟩, hbegins⟩ := escapeAt?_iff.1 h
      exact .inl ⟨rfl, rfl, hbegins⟩

theorem OpensWith.isTame {spelled : List Char} (h : OpensWith s spelled closer)
    (hsimple : closer.IsSimple) : closer.IsTame := by
  cases h with
  | delimiter pair _ _ =>
    have husual : ∀ pair ∈ pairs {}, (Closer.delimiter pair.1.2.toList).IsUsual := by decide
    exact (husual _ pair).isTame
  | environment _ hname _ =>
    obtain ⟨hopen, hbackslash⟩ := hsimple _ rfl
    exact Closer.isTame_environment fun c hc =>
      ⟨fun heq => hbackslash (heq ▸ hc), fun heq => hopen (heq ▸ hc), fun heq => hname (heq ▸ hc)⟩

theorem OpensWith.ends {spelled : List Char} (h : OpensWith s spelled closer) :
    (spelled.head? = some '$' ∨ spelled.head? = some '\\') ∧
      ∃ d, spelled.getLast? = some d ∧ d ≠ '\\' := by
  cases h with
  | delimiter pair _ _ =>
    have husual : ∀ pair ∈ pairs {}, (pair.1.1.toList.head? = some '$' ∨
        pair.1.1.toList.head? = some '\\') ∧
          pair.1.1.toList.getLast? ∈ [some '$', some '(', some '['] := by
      decide
    obtain ⟨hfirst, hlast⟩ := husual _ pair
    refine ⟨hfirst, ?_⟩
    simp only [List.mem_cons, List.not_mem_nil, or_false] at hlast
    rcases hlast with hlast | hlast | hlast <;> exact ⟨_, hlast, by decide⟩
  | environment _ _ _ =>
    refine ⟨.inr rfl, '\x7d', ?_, by decide⟩
    rw [braced, List.getLast?_append, ← List.cons_append, List.getLast?_append]
    rfl

theorem OpensWith.isPrefix {spelled : List Char} (h : OpensWith s spelled closer) : spelled <+: s := by
  cases h with
  | delimiter _ here _ => exact here
  | environment _ _ here => exact here

theorem OpensWith.unique {spelled spelled' : List Char} {closer' : Closer}
    (h : OpensWith s spelled closer) (h' : OpensWith s spelled' closer') :
    spelled = spelled' ∧ closer = closer' := by
  obtain ⟨opening, more, hopen, hlen, hcloser⟩ := h.opening?
  obtain ⟨opening', more', hopen', hlen', hcloser'⟩ := h'.opening?
  rw [hopen] at hopen'
  cases hopen'
  rw [hcloser] at hcloser'
  refine ⟨?_, Option.some.inj hcloser'⟩
  refine (List.prefix_of_prefix_length_le h.isPrefix h'.isPrefix ?_).eq_of_length ?_ <;> omega

/-! ### The search -/

/-- An opener of the text that is left over: nothing that was found covers its beginning, no
backslash takes that, and it is not inside an earlier opener that is left over. -/
def IsStray (text : List Char) (items : List Sighting) (p : Nat) (spelled : List Char)
    (closer : Closer) : Prop :=
  OpensWith (text.drop p) spelled closer ∧ (∀ x ∈ items, ¬(x.start ≤ p ∧ p < x.stop)) ∧
    ¬Odd (Token.backslashesBefore text p) ∧
    ∀ q < p, ∀ spelled' closer', IsStray text items q spelled' closer' → q + spelled'.length ≤ p
termination_by p

theorem seen?_eq_none_iff {string start : Nat} {spelled : List Char} {opening : Opening}
    (h : opening.closer? = some closer) :
    seen? string start spelled s opening = none ↔ closing? closer 0 s = none := by
  cases opening with
  | escape => cases h
  | math text display =>
    cases h
    exact Option.map_eq_none_iff
  | environment name =>
    cases h
    exact Option.map_eq_none_iff

section

variable {text run after : List Char} {items found : List Sighting} {string start stop : Nat}

theorem not_odd_of_getLast? {d : Char} (h : text.drop start = run ++ after)
    (hlast : run.getLast? = some d) (hd : d ≠ '\\') :
    ¬Odd (Token.backslashesBefore text (start + run.length)) := by
  obtain ⟨init, rfl⟩ := List.getLast?_eq_some_iff.1 hlast
  have hget : text[start + init.length]? = some d := by
    rw [← List.getElem?_drop, h]
    simp
  rw [List.length_append, List.length_singleton, ← Nat.add_assoc,
    Token.backslashesBefore_succ hget, if_neg hd]
  decide

/-- A position that the search comes to: it is not taken by a backslash, unless nothing begins
there, and openers that are left over before it end before it. -/
structure IsVisited (text : List Char) (items : List Sighting) (p : Nat) : Prop where
  free : ¬Odd (Token.backslashesBefore text p) ∨ ∀ c, text[p]? = some c → c ≠ '\\' ∧ c ≠ '$'
  clear : ∀ q < p, ∀ spelled closer, IsStray text items q spelled closer → q + spelled.length ≤ p

theorem IsVisited.not_odd (h : IsVisited text items start) (hs : text.drop start = c :: s)
    (hc : c = '\\' ∨ c = '$') : ¬Odd (Token.backslashesBefore text start) := by
  refine h.free.resolve_right fun hother => ?_
  have hget : text[start]? = some c := Token.getElem?_of_drop hs
  exact hc.elim (hother c hget).1 (hother c hget).2

theorem IsStray.opensWith {p : Nat} {spelled : List Char} (h : IsStray text items p spelled closer) :
    OpensWith (text.drop p) spelled closer := by
  rw [IsStray] at h
  exact h.1

theorem IsStray.opening? {p : Nat} {spelled : List Char} (h : IsStray text items p spelled closer)
    (hs : text.drop p = c :: s) :
    ∃ opening more, opening? {} (c :: s) = some (opening, more) ∧ spelled.length = more + 1 ∧
      opening.closer? = some closer :=
  hs ▸ h.opensWith.opening?

/-- The search comes to a later position too if the openers left over in between end before it. -/
theorem IsVisited.leap {next : Nat} (h : IsVisited text items start)
    (free : ¬Odd (Token.backslashesBefore text next) ∨ ∀ c, text[next]? = some c → c ≠ '\\' ∧ c ≠ '$')
    (between : ∀ q, start ≤ q → q < next → ∀ spelled closer, IsStray text items q spelled closer →
      q + spelled.length ≤ next) (hle : start ≤ next) : IsVisited text items next := by
  refine ⟨free, fun q hq spelled closer hstray => ?_⟩
  rcases Nat.lt_or_ge q start with hlt | hge
  · exact (h.clear q hlt spelled closer hstray).trans hle
  · exact between q hge hq spelled closer hstray

theorem IsVisited.plain (h : IsVisited text items start) (hs : text.drop start = c :: s)
    (hnone : opening? {} (c :: s) = none) :
    IsVisited text items (start + 1) ∧
      ∀ spelled closer, ¬IsStray text items start spelled closer := by
  have hstray : ∀ spelled closer, ¬IsStray text items start spelled closer := by
    intro spelled closer hstray
    obtain ⟨opening, more, hopen, -⟩ := hstray.opening? hs
    rw [hnone] at hopen
    cases hopen
  refine ⟨h.leap ?_ (fun q hge hlt spelled closer hq => ?_) (Nat.le_succ _), hstray⟩
  · have hget : text[start]? = some c := Token.getElem?_of_drop hs
    by_cases hc : c = '\\'
    · -- an odd number of backslashes takes the next character, but nothing begins there
      subst hc
      right
      intro d hd
      have hescape : escapeAt? ('\\' :: s) = none := by
        rw [Delimiters.opening?] at hnone
        split at hnone
        · cases hnone
        · split at hnone
          · cases hnone
          · exact hnone
      have hs' : text.drop (start + 1) = s := Token.drop_of_drop hs 0
      cases s with
      | nil =>
        rw [List.getElem?_eq_none (List.drop_eq_nil_iff.1 hs')] at hd
        cases hd
      | cons e s =>
        obtain rfl : e = d := Option.some.inj ((Token.getElem?_of_drop hs').symm.trans hd)
        constructor <;> (rintro rfl; cases hescape)
    · rw [Token.backslashesBefore_succ hget, if_neg hc]
      exact .inl (by decide)
  · obtain rfl : q = start := Nat.le_antisymm (Nat.le_of_lt_succ hlt) hge
    exact absurd hq (hstray spelled closer)

theorem IsVisited.escape (h : IsVisited text items start) (hs : text.drop start = c :: s)
    (hopen : opening? {} (c :: s) = some (.escape, 1))
    (hbegins : ['\\', '\\'] <+: c :: s ∨ ['\\', '$'] <+: c :: s) :
    IsVisited text items (start + 1 + 1) ∧
      ∀ q, start ≤ q → q < start + 1 + 1 → ∀ spelled closer, ¬IsStray text items q spelled closer := by
  obtain ⟨d, tail, hd, htail⟩ : ∃ d tail, (d = '\\' ∨ d = '$') ∧ c :: s = '\\' :: d :: tail := by
    rcases hbegins with ⟨tail, htail⟩ | ⟨tail, htail⟩
    · exact ⟨'\\', tail, .inl rfl, htail.symm⟩
    · exact ⟨'$', tail, .inr rfl, htail.symm⟩
  obtain ⟨rfl, rfl⟩ := List.cons.inj htail
  have hone : Odd (Token.backslashesBefore text (start + 1)) := by
    rw [Token.backslashesBefore_succ (Token.getElem?_of_drop hs), if_pos rfl]
    exact (Nat.not_odd_iff_even.1 (h.not_odd hs (.inl rfl))).add_one
  have htwo : ¬Odd (Token.backslashesBefore text (start + 1 + 1)) := by
    rw [Token.backslashesBefore_succ (Token.getElem?_of_drop (Token.drop_of_drop hs 0))]
    split
    · exact Nat.not_odd_iff_even.2 hone.add_one
    · decide
  have hstray : ∀ q, start ≤ q → q < start + 1 + 1 → ∀ spelled closer,
      ¬IsStray text items q spelled closer := by
    intro q hge hlt spelled closer hq
    obtain rfl | rfl : q = start ∨ q = start + 1 := by omega
    · obtain ⟨opening, more, hopen', -, hcloser⟩ := hq.opening? hs
      rw [hopen] at hopen'
      cases hopen'
      cases hcloser
    · rw [IsStray] at hq
      exact hq.2.2.1 hone
  exact ⟨h.leap (.inl htwo) (fun q hge hlt spelled closer hq =>
    absurd hq (hstray q hge hlt spelled closer)) (Nat.le_add_right start 2), hstray⟩

/-- An opener without a closer at which the search is left over, and the search comes to what
follows it. -/
theorem IsVisited.unclosed {spelled : List Char} (h : IsVisited text items start)
    (hopens : OpensWith (text.drop start) spelled closer)
    (hout : ∀ x ∈ items, ¬(x.start ≤ start ∧ start < x.stop)) :
    IsVisited text items (start + spelled.length) ∧
      ∀ q, start ≤ q → q < start + spelled.length → ∀ spelled' closer',
        IsStray text items q spelled' closer' → q = start := by
  obtain ⟨hfirst, d, hlast, hd⟩ := hopens.ends
  obtain ⟨after, hafter⟩ := hopens.isPrefix
  have hodd : ¬Odd (Token.backslashesBefore text start) := by
    cases spelled with
    | nil => cases hlast
    | cons e spelled =>
      refine h.not_odd hafter.symm (hfirst.symm.imp ?_ ?_) <;> exact Option.some.inj
  have hstray : IsStray text items start spelled closer := by
    rw [IsStray]
    exact ⟨hopens, hout, hodd, h.clear⟩
  have hfirst : ∀ q, start ≤ q → q < start + spelled.length → ∀ spelled' closer',
      IsStray text items q spelled' closer' → q = start := by
    intro q hge hlt spelled' closer' hq
    by_contra hne
    rw [IsStray] at hq
    have hle := hq.2.2.2 start (Nat.lt_of_le_of_ne hge (Ne.symm hne)) spelled closer hstray
    omega
  refine ⟨h.leap (.inl (not_odd_of_getLast? hafter.symm hlast hd)) ?_ (Nat.le_add_right ..), hfirst⟩
  intro q hge hlt spelled' closer' hq
  obtain rfl := hfirst q hge hlt spelled' closer' hq
  rw [(hopens.unique hq.opensWith).1]

theorem IsVisited.seen {x : Sighting} (h : IsVisited text items start) (hx : x ∈ items)
    (hstart : x.start = start) (hstop : x.stop = (start + run.length : Nat))
    (hrun : text.drop start = run ++ after) {d : Char} (hlast : run.getLast? = some d)
    (hd : d ≠ '\\') :
    IsVisited text items (start + run.length) ∧
      ∀ q, start ≤ q → q < start + run.length → ∀ spelled closer,
        ¬IsStray text items q spelled closer := by
  have hstray : ∀ q, start ≤ q → q < start + run.length → ∀ spelled closer,
      ¬IsStray text items q spelled closer := by
    intro q hge hlt spelled closer hq
    rw [IsStray] at hq
    exact hq.2.1 x hx ⟨by omega, by omega⟩
  exact ⟨h.leap (.inl (not_odd_of_getLast? hrun hlast hd)) (fun q hge hlt spelled closer hq =>
    absurd hq (hstray q hge hlt spelled closer)) (Nat.le_add_right ..), hstray⟩

/-- No closer of an opener that is left over counts. -/
theorem Scans.closes_stray {s rest : List Char} (h : Scans {} string start s found stop rest)
    (hs : text.drop start = s) (hrest : rest = []) (hvisited : IsVisited text items start)
    (hitems : ∀ x ∈ items, x ∈ found ∨ x.stop ≤ start) (hfound : ∀ x ∈ found, x ∈ items)
    {p : Nat} (hp : start ≤ p) {spelled : List Char} (hstray : IsStray text items p spelled closer)
    (hsimple : closer.IsSimple) (q : Nat) (mark : List Char) :
    ¬closer.ClosesAt 0 (text.drop (p + spelled.length)) q mark := by
  induction h with
  | refl start s =>
    have hnil : text.drop p = [] := by
      rw [← Nat.add_sub_of_le hp, ← List.drop_drop, hs, hrest, List.drop_nil]
    have hopens := hstray.opensWith
    obtain ⟨-, d, hlast, -⟩ := hopens.ends
    have hspelled : spelled = [] := List.prefix_nil.1 (hnil ▸ hopens.isPrefix)
    rw [hspelled] at hlast
    cases hlast
  | @plain start stop c s rest found hnone next ih =>
    obtain ⟨hnext, hnot⟩ := hvisited.plain hs hnone
    rcases Nat.eq_or_lt_of_le hp with rfl | hp
    · exact absurd hstray (hnot spelled closer)
    · exact ih (Token.drop_of_drop hs 0) hrest hnext
        (fun x hx => (hitems x hx).imp_right fun hle => by omega) hfound hp
  | @unclosed start stop more c s rest opening found hopen hunseen next ih =>
    have ih := ih (Token.drop_of_drop hs more) hrest
    rcases opensWith_of_opening? hopen with ⟨rfl, rfl, hbegins⟩ | ⟨closer', hcloser', hopens⟩
    · obtain ⟨hnext, hnot⟩ := hvisited.escape hs hopen hbegins
      rcases Nat.lt_or_ge p (start + 1 + 1) with hlt | hge
      · exact absurd hstray (hnot p hp hlt spelled closer)
      · exact ih hnext (fun x hx => (hitems x hx).imp_right fun hle => by omega) hfound hge
    · have hlen : start + (c :: s.take more).length = start + 1 + more := by
        rw [List.length_cons, List.length_take_of_le (opening?_eq_some hopen).1]
        omega
      have hout : ∀ x ∈ items, ¬(x.start ≤ start ∧ start < x.stop) := by
        rintro x hx ⟨hle, hlt⟩
        rcases hitems x hx with hx | hx
        · obtain ⟨t, -, -, hseen, -⟩ := next.spec
          have hge := (hseen x hx).start_le
          omega
        · omega
      obtain ⟨hnext, hfirst⟩ := hvisited.unclosed (hs ▸ hopens) hout
      rw [hlen] at hnext hfirst
      rcases Nat.lt_or_ge p (start + 1 + more) with hlt | hge
      · obtain rfl := hfirst p hp hlt spelled closer hstray
        obtain ⟨rfl, rfl⟩ := hopens.unique (hs ▸ hstray.opensWith)
        rw [hlen, Token.drop_of_drop hs more]
        exact (closing?_first (hopens.isTame hsimple) 0 _).2 ((seen?_eq_none_iff hcloser').1 hunseen)
          q mark
      · exact ih hnext (fun x hx => (hitems x hx).imp_right fun hle => by omega) hfound hge
  | @seen start stop more c s others rest opening x found hopen hseen next ih =>
    obtain ⟨-, hstart, hspells, hstop⟩ := seen?_eq_some hseen
    rw [List.cons_append, List.take_append_drop] at hspells
    have hmem : x ∈ findFrom {} string start (c :: s) := by
      rw [(Scans.seen hopen hseen (.refl ..)).findFrom_eq]
      exact List.mem_cons_self ..
    obtain ⟨-, d, hd, hlast⟩ := findFrom_ends hmem
    have hne : d ≠ '\\' := by
      rintro rfl
      exact absurd hd (by decide)
    obtain ⟨hnext, hnot⟩ := hvisited.seen (hfound x (List.mem_cons_self ..)) hstart (by omega)
      (hs.trans hspells) hlast hne
    have hend : x.stop.toNat = start + x.spelling.length := by omega
    rcases Nat.lt_or_ge p (start + x.spelling.length) with hlt | hge
    · exact absurd hstray (hnot p hp hlt spelled closer)
    · rw [hend] at ih
      refine ih ?_ hrest hnext (fun y hy => ?_) (fun y hy => hfound y (List.mem_cons_of_mem _ hy)) hge
      · rw [← List.drop_drop, hs, hspells, List.drop_left]
      · rcases hitems y hy with hy | hle
        · rcases List.mem_cons.1 hy with rfl | hy
          · exact .inr (by omega)
          · exact .inl hy
        · exact .inr (by omega)

/-- What is found was seen where it begins. -/
theorem Scans.exists_opening_at {delims : Delimiters} {s rest : List Char}
    (h : Scans delims string start s found stop rest) (hs : text.drop start = s) {x : Sighting}
    (hx : x ∈ found) :
    ∃ (begin more : Nat) (c : Char) (t others : List Char) (opening : Opening),
      text.drop begin = c :: t ∧ delims.opening? (c :: t) = some (opening, more) ∧
      seen? string begin (c :: t.take more) (t.drop more) opening = some (x, others) := by
  induction h with
  | refl => cases hx
  | plain _ _ ih => exact ih (Token.drop_of_drop hs 0) hx
  | @unclosed _ _ more _ _ _ _ _ _ _ _ ih => exact ih (Token.drop_of_drop hs more) hx
  | @seen start stop more c s others rest opening x found hopen hseen next ih =>
    rcases List.mem_cons.1 hx with rfl | hx
    · exact ⟨start, more, c, s, others, opening, hs, hopen, hseen⟩
    · obtain ⟨-, hstart, hspells, hstop⟩ := seen?_eq_some hseen
      rw [List.cons_append, List.take_append_drop] at hspells
      have hend : x.stop.toNat = start + x.spelling.length := by omega
      rw [hend] at ih
      exact ih (by rw [← List.drop_drop, hs, hspells, List.drop_left]) hx

end

/-- What the search finds in a text ends at the first closer behind its opener that counts, and
behind an opener that is left over no closer counts.  Of environments this is said of those with a
name that has neither an opening brace nor a backslash. -/
theorem find_admits (s : String) :
    (∀ x ∈ find {} [s], ∃ (start : Nat) (spelled : List Char) (closer : Closer),
      x.start = start ∧ OpensWith (s.toList.drop start) spelled closer ∧
      (closer.IsSimple → ∃ (q : Nat) (mark : List Char),
        closer.ClosesAt 0 (s.toList.drop (start + spelled.length)) q mark ∧
        (∀ q' < q, ∀ mark', ¬closer.ClosesAt 0 (s.toList.drop (start + spelled.length)) q' mark') ∧
        x.stop = (start + spelled.length + q + mark.length : Nat))) ∧
    ∀ (p : Nat) (spelled : List Char) (closer : Closer),
      IsStray s.toList (find {} [s]) p spelled closer → closer.IsSimple →
      ∀ (q : Nat) (mark : List Char),
        ¬closer.ClosesAt 0 (s.toList.drop (p + spelled.length)) q mark := by
  have hscan := scans_findFrom {} 0 0 s.toList
  rw [find_singleton]
  refine ⟨fun x hx => ?_, fun p spelled closer hstray hsimple q mark => ?_⟩
  · obtain ⟨start, more, c, t, others, opening, hs, hopen, hseen⟩ :=
      hscan.exists_opening_at List.drop_zero hx
    obtain ⟨closer, body, mark, hled⟩ := leads_of_seen? hseen
    rcases opensWith_of_opening? hopen with ⟨rfl, -⟩ | ⟨closer', hcloser', hopens⟩
    · cases hled.closed
    · obtain rfl : closer = closer' := Option.some.inj (hled.closed.symm.trans hcloser')
      have hrest : s.toList.drop (start + (c :: t.take more).length) = t.drop more := by
        rw [List.length_cons, List.length_take_of_le (opening?_eq_some hopen).1, Nat.add_comm more,
          ← Nat.add_assoc, Token.drop_of_drop hs more]
      refine ⟨start, c :: t.take more, closer, hled.start_eq, hs ▸ hopens, fun hsimple => ?_⟩
      obtain ⟨hcloses, hbefore⟩ := (closing?_first (hopens.isTame hsimple) 0 _).1 _ hled.cuts
      rw [hrest]
      refine ⟨_, _, hcloses, hbefore, hled.stop.trans ?_⟩
      push_cast
      rfl
  · have hvisited : IsVisited s.toList (findFrom {} 0 0 s.toList) 0 :=
      ⟨.inl (Token.not_odd_backslashesBefore_zero _), fun q hq => absurd hq (Nat.not_lt_zero q)⟩
    exact hscan.closes_stray List.drop_zero rfl hvisited (fun x hx => .inl hx) (fun x hx => hx)
      (Nat.zero_le p) hstray hsimple q mark

/-- In front of a formula stands a parenthesis that nothing closes. -/
theorem find_admits_openParenthesis :
    let x : Sighting :=
      { math := "b", opener := "$", closer := "$", string := 0, start := 3, stop := 6
        display := false }
    find {} ["\\(a$b$"] = [x] ∧
      IsStray "\\(a$b$".toList [x] 0 ['\\', '('] (.delimiter ['\\', ')']) ∧
      ∀ q mark, ¬(Closer.delimiter ['\\', ')']).ClosesAt 0 "a$b$".toList q mark := by
  intro x
  have hitems : find {} ["\\(a$b$"] = [x] := by
    have hopens : opening? {} ('\\' :: "(a$b$".toList) = some (.math ['\\', ')'] false, 1) ∧
        opening? {} ('a' :: "$b$".toList) = none ∧
        opening? {} ('$' :: "b$".toList) = some (.math ['$'] false, 0) := by
      simp only [opening?, delimiterAt?, openers_usual]
      decide +kernel
    have hunseen : seen? 0 0 ['\\', '('] "a$b$".toList (.math ['\\', ')'] false) = none := by
      decide +kernel
    have hseen : seen? 0 3 ['$'] "b$".toList (.math ['$'] false) = some (x, []) := by decide +kernel
    obtain ⟨hparenthesis, ha, hdollar⟩ := hopens
    have hscan : Scans {} 0 0 "\\(a$b$".toList [x] 6 [] :=
      .unclosed hparenthesis hunseen (.plain ha (.seen hdollar hseen (.refl 6 [])))
    exact hscan.find_singleton
  have hstray : IsStray "\\(a$b$".toList [x] 0 ['\\', '('] (.delimiter ['\\', ')']) := by
    rw [IsStray]
    refine ⟨?_, by decide, by decide, fun q hq => absurd hq (Nat.not_lt_zero q)⟩
    exact @OpensWith.delimiter _ "\\(" "\\)" false (by decide) (by decide) (by decide)
  refine ⟨hitems, hstray, (find_admits "\\(a$b$").2 0 _ _ (hitems ▸ hstray) ?_⟩
  rintro name ⟨⟩

end Delimiters

end Formulary
