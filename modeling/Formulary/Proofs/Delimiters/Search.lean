import Mathlib.Data.List.TakeWhile
import Formulary.Delimiters

/-! # What the search for delimiters finds

A sighting spells the stretch of the text between its two offsets (`findFrom_spec`), and
sightings of one text follow each other without overlap (`findFrom_pairwise`).  With the usual
delimiters a sighting begins with a dollar sign or a backslash and ends with a dollar sign or a
closing bracket (`findFrom_ends`), so it neither begins nor ends with a blank. -/

namespace Formulary

/-- The text of a sighting, delimiters included. -/
def Sighting.spelling (x : Sighting) : List Char :=
  x.opener.toList ++ x.math.toList ++ x.closer.toList

namespace Text

theorem after?_eq_some {p s r : List Char} : after? p s = some r ↔ s = p ++ r := by
  induction p generalizing s with
  | nil => simp [after?, eq_comm]
  | cons c p ih =>
    cases s with
    | nil => simp [after?]
    | cons d s =>
      rw [after?]
      split
      · rename_i h
        rw [ih, h]
        simp
      · rename_i h
        simp [Ne.symm h]

end Text

namespace Delimiters

/-! ### Closing -/

/-- The closer that a text begins with, as it is spelled there. -/
def Closer.IsSpelled (closer : Closer) (mark : List Char) : Prop :=
  match closer with
  | delimiter text => mark = text
  | environment name => ∃ blanks : List Char, (∀ c ∈ blanks, Text.isBlank c = true) ∧
      mark = "\\end".toList ++ blanks ++ braced name

theorem Closer.length?_eq_some {closer : Closer} {s : List Char} {n : Nat}
    (h : closer.length? s = some n) :
    n ≤ s.length ∧ closer.IsSpelled (s.take n) := by
  cases closer with
  | delimiter text =>
    obtain ⟨rest, hrest, rfl⟩ := Option.map_eq_some_iff.1 h
    obtain rfl := Text.after?_eq_some.1 hrest
    exact ⟨by simp, List.take_left⟩
  | environment name =>
    simp only [length?] at h
    split at h
    · cases h
    · rename_i rest hrest
      obtain ⟨tail, htail, rfl⟩ := Option.map_eq_some_iff.1 h
      have hsplit := List.takeWhile_append_dropWhile (p := Text.isBlank) (l := rest)
      rw [Text.after?_eq_some.1 htail] at hsplit
      have hs : s = ("\\end".toList ++ rest.takeWhile Text.isBlank ++ braced name) ++ tail := by
        rw [Text.after?_eq_some.1 hrest, List.append_assoc, List.append_assoc]
        exact congrArg _ hsplit.symm
      have hlen : 4 + (rest.takeWhile Text.isBlank).length + (braced name).length =
          ("\\end".toList ++ rest.takeWhile Text.isBlank ++ braced name).length := by
        simp only [List.length_append]
        rfl
      rw [hlen]
      refine ⟨by rw [hs]; simp, rest.takeWhile Text.isBlank,
        fun c hc => List.mem_takeWhile_imp hc, ?_⟩
      rw [hs, List.take_left]

theorem closing?_mark {closer : Closer} {depth : Nat} {s : List Char} {cut : Cut}
    (h : closing? closer depth s = some cut) : closer.IsSpelled cut.mark := by
  fun_induction closing? closer depth s generalizing cut with
  | case1 depth s n hn =>
    cases h
    split at hn
    · exact (Closer.length?_eq_some hn).2
    · cases hn
  | case2 => simp at h
  | case3 depth c rest n piece hnone =>
    rename_i ih
    obtain ⟨inner, hinner, rfl⟩ := Option.map_eq_some_iff.1 h
    have hmark := ih hinner
    exact hmark

/-! ### Opening -/

theorem take_of_eq_append {c : Char} {rest spelled tail : List Char} {more : Nat}
    (h : c :: rest = spelled ++ tail) (hlen : spelled.length = more + 1) :
    c :: rest.take more = spelled ∧ more ≤ rest.length := by
  constructor
  · rw [← List.take_succ_cons, h, List.take_left' hlen]
  · have := congrArg List.length h
    rw [List.length_cons, List.length_append, hlen] at this
    omega

theorem delimiterAt?_eq_some {delims : Delimiters} {c : Char} {rest : List Char}
    {opening : Opening} {more : Nat} (h : delims.delimiterAt? (c :: rest) = some (opening, more)) :
    ∃ opener ∈ delims.openers, opening = delims.opening opener ∧
      c :: rest.take more = opener.toList ∧ more ≤ rest.length := by
  obtain ⟨opener, hfind, heq⟩ := Option.map_eq_some_iff.1 h
  obtain ⟨rfl, rfl⟩ := Prod.mk.inj heq
  have hpred := List.find?_some hfind
  simp only [Bool.and_eq_true, decide_eq_true_eq, List.isPrefixOf_iff_prefix] at hpred
  obtain ⟨hne, tail, htail⟩ := hpred
  refine ⟨opener, List.mem_of_find?_eq_some hfind, rfl, take_of_eq_append htail.symm ?_⟩
  have hpos : opener.toList ≠ [] := fun hnil => hne (String.toList_inj.1 hnil)
  have hlen : opener.length = opener.toList.length := rfl
  have := List.length_pos_iff.2 hpos
  omega

theorem eq_name_append {s : List Char}
    (h : (s.takeWhile (· ≠ '\x7d')).length < s.length) :
    ∃ tail, s = s.takeWhile (· ≠ '\x7d') ++ '\x7d' :: tail := by
  have hsplit := List.takeWhile_append_dropWhile (p := (· ≠ '\x7d')) (l := s)
  cases hdrop : s.dropWhile (· ≠ '\x7d') with
  | nil =>
    rw [hdrop, List.append_nil] at hsplit
    rw [hsplit] at h
    exact absurd h (Nat.lt_irrefl _)
  | cons c tail =>
    have hc := List.head?_dropWhile_not (· ≠ '\x7d') s
    rw [hdrop] at hc
    obtain rfl : c = '\x7d' := by simpa using hc
    exact ⟨tail, by rw [← hdrop, hsplit]⟩

theorem environmentAt?_eq_some {c : Char} {rest : List Char} {opening : Opening} {more : Nat}
    (h : environmentAt? (c :: rest) = some (opening, more)) :
    ∃ name blanks, opening = .environment name ∧ '\x7d' ∉ name ∧
      (∀ b ∈ blanks, Text.isBlank b = true) ∧
      c :: rest.take more = "\\begin".toList ++ blanks ++ braced name ∧ more ≤ rest.length := by
  rw [environmentAt?] at h
  split at h
  · cases h
  · rename_i body hbody
    split at h
    · cases h
    · rename_i d inside hinside
      simp only [Bool.and_eq_true, decide_eq_true_eq] at h
      split at h
      · rename_i hd
        obtain ⟨rfl, hname⟩ := hd
        simp only [Option.some.injEq, Prod.mk.injEq] at h
        obtain ⟨rfl, rfl⟩ := h
        have hsplit := List.takeWhile_append_dropWhile (p := Text.isBlank) (l := body)
        obtain ⟨tail, htail⟩ := eq_name_append hname
        have hc : c :: rest = "\\begin".toList ++ body := Text.after?_eq_some.1 hbody
        rw [hinside, htail] at hsplit
        have hwhole : c :: rest = ("\\begin".toList ++ body.takeWhile Text.isBlank ++
            braced (inside.takeWhile (· ≠ '\x7d'))) ++ tail := by
          rw [hc, List.append_assoc, List.append_assoc]
          refine congrArg _ (hsplit.symm.trans ?_)
          simp [braced]
        refine ⟨_, body.takeWhile Text.isBlank, rfl, fun hmem => ?_,
          fun b hb => List.mem_takeWhile_imp hb, take_of_eq_append hwhole ?_⟩
        · simpa using List.mem_takeWhile_imp hmem
        have hbegin : "\\begin".toList.length = 6 := rfl
        rw [List.length_append, List.length_append, hbegin]
        omega
      · cases h

theorem escapeAt?_eq_some {c : Char} {rest : List Char} {opening : Opening} {more : Nat}
    (h : escapeAt? (c :: rest) = some (opening, more)) :
    opening = .escape ∧ more ≤ rest.length := by
  rw [escapeAt?.eq_def] at h
  split at h
  · rename_i heq
    cases h
    cases heq
    exact ⟨rfl, by simp⟩
  · rename_i heq
    cases h
    cases heq
    exact ⟨rfl, by simp⟩
  · cases h

/-- What an opening at the head of a text is spelled like: an opener, or the beginning of an
environment, or an escape. -/
theorem opening?_eq_some {delims : Delimiters} {c : Char} {rest : List Char} {opening : Opening}
    {more : Nat} (h : delims.opening? (c :: rest) = some (opening, more)) :
    more ≤ rest.length ∧
      ((∃ opener ∈ delims.openers, opening = delims.opening opener ∧
        c :: rest.take more = opener.toList) ∨
      (∃ name blanks, opening = .environment name ∧ '\x7d' ∉ name ∧
        (∀ b ∈ blanks, Text.isBlank b = true) ∧
        c :: rest.take more = "\\begin".toList ++ blanks ++ braced name) ∨
      opening = .escape) := by
  rw [opening?] at h
  split at h
  · rename_i found hfound
    cases h
    obtain ⟨opener, hmem, hopening, hspelled, hle⟩ := delimiterAt?_eq_some hfound
    exact ⟨hle, .inl ⟨opener, hmem, hopening, hspelled⟩⟩
  · split at h
    · rename_i found hfound
      cases h
      split at hfound
      · obtain ⟨name, blanks, hopening, hname, hblanks, hspelled, hle⟩ :=
          environmentAt?_eq_some hfound
        exact ⟨hle, .inr (.inl ⟨name, blanks, hopening, hname, hblanks, hspelled⟩)⟩
      · cases hfound
    · split at h
      · obtain ⟨rfl, hle⟩ := escapeAt?_eq_some h
        exact ⟨hle, .inr (.inr rfl)⟩
      · cases h

/-! ### Finding -/

/-- What an opening is closed by. -/
def Opening.closer? : Opening → Option Closer
  | .math text _ => some (.delimiter text)
  | .environment name => some (.environment name)
  | .escape => none

/-- An opening that is spelled `spelled` leads to the sighting `x`: its closer cuts the text `s`
behind it, and what is seen depends on the two parts before the rest only. -/
structure Opening.Leads (o : Opening) (string start : Nat) (spelled s : List Char) (x : Sighting)
    (closer : Closer) (cut : Cut) : Prop where
  closed : o.closer? = some closer
  cuts : closing? closer 0 s = some cut
  string_eq : x.string = string
  start_eq : x.start = start
  spelling : x.spelling = spelled ++ cut.body ++ cut.mark
  stop : x.stop = start + spelled.length + cut.body.length + cut.mark.length
  again {s' rest : List Char} (h : closing? closer 0 s' = some { cut with rest }) :
    seen? string start spelled s' o = some (x, rest)

theorem leads_of_seen? {string start : Nat} {spelled s rest : List Char} {o : Opening}
    {x : Sighting} (h : seen? string start spelled s o = some (x, rest)) :
    ∃ closer body mark, o.Leads string start spelled s x closer ⟨body, mark, rest⟩ := by
  cases o with
  | escape => cases h
  | math closer display =>
    obtain ⟨⟨body, mark, others⟩, hcut, heq⟩ := Option.map_eq_some_iff.1 h
    obtain ⟨rfl, rfl⟩ := Prod.mk.inj heq
    refine ⟨_, body, mark, rfl, hcut, rfl, rfl, ?_, rfl, fun hcut' => ?_⟩
    · simp [Sighting.spelling]
    · rw [seen?, hcut']
      rfl
  | environment name =>
    obtain ⟨⟨body, mark, others⟩, hcut, heq⟩ := Option.map_eq_some_iff.1 h
    obtain ⟨rfl, rfl⟩ := Prod.mk.inj heq
    refine ⟨_, body, mark, rfl, hcut, rfl, rfl, ?_, rfl, fun hcut' => ?_⟩
    · simp [Sighting.spelling]
    · rw [seen?, hcut']
      rfl

/-- A sighting that begins at the head of a text spells it up to its end. -/
theorem seen?_eq_some {string start : Nat} {spelled s rest : List Char} {opening : Opening}
    {x : Sighting} (h : seen? string start spelled s opening = some (x, rest)) :
    x.string = string ∧ x.start = start ∧ spelled ++ s = x.spelling ++ rest ∧
      x.stop = start + x.spelling.length := by
  obtain ⟨closer, body, mark, hled⟩ := leads_of_seen? h
  refine ⟨hled.string_eq, hled.start_eq, ?_, ?_⟩
  · rw [closing?_eq_some hled.cuts, hled.spelling]
    simp
  · rw [hled.stop, hled.spelling]
    simp [Int.add_assoc]

/-- The sighting spells the text `t`, which begins at the offset `start`, between its offsets. -/
def IsSeen (string start : Nat) (t : List Char) (x : Sighting) : Prop :=
  x.string = string ∧ ∃ before after : List Char, t = before ++ x.spelling ++ after ∧
    x.start = start + (before.length : Int) ∧ x.stop = x.start + (x.spelling.length : Int)

theorem IsSeen.skip {string start : Nat} {t : List Char} {x : Sighting} (skipped : List Char)
    (h : IsSeen string (start + skipped.length) t x) : IsSeen string start (skipped ++ t) x := by
  obtain ⟨hstring, before, after, rfl, hstart, hstop⟩ := h
  refine ⟨hstring, skipped ++ before, after, by simp, ?_, hstop⟩
  rw [List.length_append, hstart]
  omega

theorem IsSeen.start_le {string start : Nat} {t : List Char} {x : Sighting}
    (h : IsSeen string start t x) : (start : Int) ≤ x.start := by
  obtain ⟨-, before, after, -, hstart, -⟩ := h
  omega

/-- The search comes from the offset `start`, where the text `s` begins, to the offset `stop`,
where `rest` begins, and sees `found` on its way. -/
inductive Scans (delims : Delimiters) (string : Nat) :
    Nat → List Char → List Sighting → Nat → List Char → Prop
  | refl (start : Nat) (s : List Char) : Scans delims string start s [] start s
  | plain {start stop : Nat} {c : Char} {s rest : List Char} {found : List Sighting}
    (hnone : delims.opening? (c :: s) = none)
    (next : Scans delims string (start + 1) s found stop rest) :
    Scans delims string start (c :: s) found stop rest
  | unclosed {start stop more : Nat} {c : Char} {s rest : List Char} {opening : Opening}
    {found : List Sighting} (hopen : delims.opening? (c :: s) = some (opening, more))
    (hunseen : seen? string start (c :: s.take more) (s.drop more) opening = none)
    (next : Scans delims string (start + 1 + more) (s.drop more) found stop rest) :
    Scans delims string start (c :: s) found stop rest
  | seen {start stop more : Nat} {c : Char} {s others rest : List Char} {opening : Opening}
    {x : Sighting} {found : List Sighting}
    (hopen : delims.opening? (c :: s) = some (opening, more))
    (hseen : seen? string start (c :: s.take more) (s.drop more) opening = some (x, others))
    (next : Scans delims string x.stop.toNat others found stop rest) :
    Scans delims string start (c :: s) (x :: found) stop rest

theorem Scans.findFrom_eq {delims : Delimiters} {string start stop : Nat} {s rest : List Char}
    {found : List Sighting} (h : Scans delims string start s found stop rest) :
    delims.findFrom string start s = found ++ delims.findFrom string stop rest := by
  induction h with
  | refl => rfl
  | plain hnone _ ih =>
    rw [findFrom, hnone]
    exact ih
  | unclosed hopen hunseen _ ih =>
    rw [findFrom, hopen]
    simp only
    split
    · exact ih
    · rename_i heq
      rw [hunseen] at heq
      cases heq
  | seen hopen hseen _ ih =>
    rw [findFrom, hopen]
    simp only
    split
    · rename_i heq
      rw [hseen] at heq
      cases heq
    · rename_i heq
      rw [hseen] at heq
      cases heq
      exact congrArg _ ih

/-- A search that comes to the end of a text has seen all that is seen in it. -/
theorem Scans.findFrom_end {delims : Delimiters} {string start stop : Nat} {s : List Char}
    {found : List Sighting} (h : Scans delims string start s found stop []) :
    delims.findFrom string start s = found := by
  rw [h.findFrom_eq, findFrom, List.append_nil]

theorem Scans.skip {delims : Delimiters} {string start stop : Nat} (before : List Char)
    {s rest : List Char} {found : List Sighting}
    (h : ∀ i < before.length, delims.opening? ((before ++ s).drop i) = none)
    (next : Scans delims string (start + before.length) s found stop rest) :
    Scans delims string start (before ++ s) found stop rest := by
  induction before generalizing start with
  | nil => exact next
  | cons c before ih =>
    refine .plain (h 0 (Nat.succ_pos _)) (ih (fun i hi => h (i + 1) (Nat.succ_lt_succ hi)) ?_)
    rwa [List.length_cons, Nat.add_comm before.length, ← Nat.add_assoc] at next

theorem scans_findFrom (delims : Delimiters) (string start : Nat) (s : List Char) :
    Scans delims string start s (delims.findFrom string start s) (start + s.length) [] := by
  fun_induction findFrom delims string start s with
  | case1 start => exact .refl start []
  | case2 start c rest hnone ih =>
    have hlen : start + 1 + rest.length = start + (c :: rest).length := by
      rw [List.length_cons]
      omega
    exact .plain hnone (hlen ▸ ih)
  | case3 start c rest opening more hopen hunseen ih =>
    have hle := (opening?_eq_some hopen).1
    have hlen : start + 1 + more + (rest.drop more).length = start + (c :: rest).length := by
      rw [List.length_cons, List.length_drop]
      omega
    exact .unclosed hopen hunseen (hlen ▸ ih)
  | case4 start c rest opening more hopen x others hseen _ ih =>
    obtain ⟨-, hstart, hspells, hstop⟩ := seen?_eq_some hseen
    have hlen : x.stop.toNat + others.length = start + (c :: rest).length := by
      have := congrArg List.length hspells
      rw [List.cons_append, List.take_append_drop, List.length_append] at this
      omega
    exact .seen hopen hseen (hlen ▸ ih)

theorem Scans.spec {delims : Delimiters} {string start stop : Nat} {s rest : List Char}
    {found : List Sighting} (h : Scans delims string start s found stop rest) :
    ∃ t, s = t ++ rest ∧ stop = start + t.length ∧ (∀ x ∈ found, IsSeen string start t x) ∧
      found.Pairwise fun x y => x.stop ≤ y.start := by
  induction h with
  | refl start s => exact ⟨[], rfl, rfl, by simp, .nil⟩
  | @plain start stop c s rest found hnone next ih =>
    obtain ⟨t, rfl, rfl, hseen, hpair⟩ := ih
    refine ⟨[c] ++ t, rfl, ?_, fun x hx => (hseen x hx).skip [c], hpair⟩
    rw [List.length_append, List.length_singleton]
    omega
  | @unclosed start stop more c s rest opening found hopen hunseen next ih =>
    obtain ⟨t, ht, rfl, hseen, hpair⟩ := ih
    have hlen : (c :: s.take more).length = 1 + more := by
      rw [List.length_cons, List.length_take, Nat.min_eq_left (opening?_eq_some hopen).1]
      omega
    refine ⟨(c :: s.take more) ++ t, ?_, ?_, fun x hx => IsSeen.skip _ ?_, hpair⟩
    · rw [List.append_assoc, ← ht, List.cons_append, List.take_append_drop]
    · rw [List.length_append, hlen]
      omega
    · rw [hlen, ← Nat.add_assoc]
      exact hseen x hx
  | @seen start stop more c s others rest opening x found hopen hseen next ih =>
    obtain ⟨t, rfl, rfl, hlater, hpair⟩ := ih
    obtain ⟨hstring, hstart, hspells, hstop⟩ := seen?_eq_some hseen
    rw [List.cons_append, List.take_append_drop] at hspells
    have hend : x.stop.toNat = start + x.spelling.length := by omega
    rw [hend] at hlater
    have hlater : ∀ y ∈ found, IsSeen string (start + x.spelling.length) t y := hlater
    refine ⟨x.spelling ++ t, by rw [hspells, List.append_assoc], ?_, ?_, ?_⟩
    · rw [List.length_append]
      omega
    · intro y hy
      rcases List.mem_cons.1 hy with rfl | hy
      · exact ⟨hstring, [], t, rfl, by simpa using hstart, by omega⟩
      · exact (hlater y hy).skip _
    · refine List.pairwise_cons.2 ⟨fun y hy => ?_, hpair⟩
      have := (hlater y hy).start_le
      omega

/-- A sighting spells the text between its offsets. -/
theorem findFrom_spec {delims : Delimiters} {string start : Nat} {s : List Char} :
    ∀ x ∈ delims.findFrom string start s, IsSeen string start s x := by
  obtain ⟨t, ht, -, hseen, -⟩ := (scans_findFrom delims string start s).spec
  rw [List.append_nil] at ht
  exact ht ▸ hseen

/-- Sightings of one text follow each other. -/
theorem findFrom_pairwise (delims : Delimiters) (string start : Nat) (s : List Char) :
    (delims.findFrom string start s).Pairwise fun x y => x.stop ≤ y.start := by
  obtain ⟨t, -, -, -, hpair⟩ := (scans_findFrom delims string start s).spec
  exact hpair

theorem pairwise_zipIdx (strings : List String) (k : Nat) :
    (strings.zipIdx k).Pairwise fun a b => a.2 < b.2 := by
  induction strings generalizing k with
  | nil => exact .nil
  | cons s rest ih =>
    rw [List.zipIdx_cons]
    refine List.pairwise_cons.2 ⟨fun b hb => ?_, ih (k + 1)⟩
    have := (List.mem_zipIdx hb).1
    omega

theorem find_spec {delims : Delimiters} {strings : List String} {x : Sighting}
    (h : x ∈ delims.find strings) :
    ∃ (j : Nat) (s : String), strings[j]? = some s ∧ x ∈ delims.findFrom j 0 s.toList ∧
      IsSeen j 0 s.toList x := by
  obtain ⟨⟨s, j⟩, hmem, hx⟩ := List.mem_flatMap.1 h
  exact ⟨j, s, List.mem_zipIdx_iff_getElem?.1 hmem, hx, findFrom_spec x hx⟩

/-- Sightings are found in the order of the strings, and of the offsets in each. -/
theorem find_pairwise (delims : Delimiters) (strings : List String) :
    (delims.find strings).Pairwise fun x y =>
      x.string < y.string ∨ x.string = y.string ∧ x.stop ≤ y.start := by
  refine List.pairwise_flatMap.2 ⟨fun ⟨s, j⟩ _ => ?_, ?_⟩
  · refine (findFrom_pairwise delims j 0 s.toList).imp_of_mem fun hx hy hle => .inr ⟨?_, hle⟩
    exact (findFrom_spec _ hx).1.trans (findFrom_spec _ hy).1.symm
  · refine List.Pairwise.imp ?_ (pairwise_zipIdx strings 0)
    intro a b hlt x hx y hy
    rw [(findFrom_spec x hx).1, (findFrom_spec y hy).1]
    exact .inl (Int.ofNat_lt.2 hlt)

theorem find_singleton (delims : Delimiters) (s : String) :
    delims.find [s] = delims.findFrom 0 0 s.toList :=
  List.append_nil _

theorem Scans.find_singleton {delims : Delimiters} {s : String} {found : List Sighting} {stop : Nat}
    (h : Scans delims 0 0 s.toList found stop []) : delims.find [s] = found := by
  rw [Delimiters.find_singleton, h.findFrom_end]

theorem find_of_seen {delims : Delimiters} {spelled t others : List Char} {opening : Opening}
    {more : Nat} {x : Sighting} (hopen : delims.opening? (spelled ++ t) = some (opening, more))
    (hlen : spelled.length = more + 1) (hseen : seen? 0 0 spelled t opening = some (x, others)) :
    delims.find [String.ofList (spelled ++ t)] = x :: delims.findFrom 0 x.stop.toNat others := by
  cases spelled with
  | nil => cases hlen
  | cons c tail =>
    obtain rfl : tail.length = more := Nat.succ_inj.1 hlen
    have hfirst : seen? 0 0 (c :: (tail ++ t).take tail.length) ((tail ++ t).drop tail.length)
        opening = some (x, others) := by
      rwa [List.take_left, List.drop_left]
    rw [List.cons_append] at hopen
    rw [find_singleton, String.toList_ofList, List.cons_append,
      (Scans.seen hopen hfirst (.refl x.stop.toNat others)).findFrom_eq, List.singleton_append]

/-! ### The usual delimiters -/

theorem Scans.exists_opening {delims : Delimiters} {string start stop : Nat} {s rest : List Char}
    {found : List Sighting} (h : Scans delims string start s found stop rest) {x : Sighting}
    (hx : x ∈ found) :
    ∃ (begin more : Nat) (c : Char) (t others : List Char) (opening : Opening),
      delims.opening? (c :: t) = some (opening, more) ∧
      seen? string begin (c :: t.take more) (t.drop more) opening = some (x, others) := by
  induction h with
  | refl => cases hx
  | plain _ _ ih => exact ih hx
  | unclosed _ _ _ ih => exact ih hx
  | seen hopen hseen _ ih =>
    rcases List.mem_cons.1 hx with rfl | hx
    · exact ⟨_, _, _, _, _, _, hopen, hseen⟩
    · exact ih hx

theorem openers_usual : openers {} = ["\\(", "$$", "\\[", "$"] := by
  simp +decide [openers, pairs, List.mergeSort]

/-- With the usual delimiters, what opens mathematics begins with a dollar sign or a backslash,
and what closes it ends with a dollar sign or a closing bracket. -/
theorem usual_opening {opener : String} (h : opener ∈ openers {}) :
    (opener.toList.head? = some '$' ∨ opener.toList.head? = some '\\') ∧
      ∃ closer display, opening {} opener = .math closer display ∧
        ∃ c ∈ ['$', ')', ']'], closer.getLast? = some c := by
  simp only [openers_usual, List.mem_cons, List.not_mem_nil, or_false] at h
  rcases h with rfl | rfl | rfl | rfl
  · exact ⟨.inr rfl, ['\\', ')'], false, by decide, ')', by decide, rfl⟩
  · exact ⟨.inl rfl, ['$', '$'], true, by decide, '$', by decide, rfl⟩
  · exact ⟨.inr rfl, ['\\', ']'], true, by decide, ']', by decide, rfl⟩
  · exact ⟨.inl rfl, ['$'], false, by decide, '$', by decide, rfl⟩

/-- The first and the last character of a sighting between the usual delimiters. -/
theorem findFrom_ends {string start : Nat} {s : List Char} {x : Sighting}
    (h : x ∈ findFrom {} string start s) :
    (x.spelling.head? = some '$' ∨ x.spelling.head? = some '\\') ∧
      ∃ c ∈ ['$', ')', ']', '\x7d'], x.spelling.getLast? = some c := by
  obtain ⟨begin, more, c, t, others, opening, hopen, hseen⟩ :=
    (scans_findFrom {} string start s).exists_opening h
  obtain ⟨-, hkind⟩ := opening?_eq_some hopen
  rcases hkind with ⟨opener, hmem, rfl, hspelled⟩ | ⟨name, blanks, rfl, -, -, hspelled⟩ | rfl
  · obtain ⟨hfirst, closer, display, hopening, d, hd, hlast⟩ := usual_opening hmem
    rw [hopening] at hseen
    obtain ⟨cut, hcut, heq⟩ := Option.map_eq_some_iff.1 hseen
    obtain ⟨rfl, -⟩ := Prod.mk.inj heq
    have hmark : cut.mark = closer := closing?_mark hcut
    rw [← hspelled] at hfirst
    simp only [Sighting.spelling, String.toList_ofList]
    refine ⟨hfirst, d, ?_, ?_⟩
    · simp only [List.mem_cons] at hd ⊢
      rcases hd with hd | hd | hd | hd
      · exact .inl hd
      · exact .inr (.inl hd)
      · exact .inr (.inr (.inl hd))
      · cases hd
    · rw [List.getLast?_append, hmark, hlast]
      rfl
  · obtain ⟨cut, hcut, heq⟩ := Option.map_eq_some_iff.1 hseen
    obtain ⟨rfl, -⟩ := Prod.mk.inj heq
    obtain ⟨blanks', -, hmark⟩ := closing?_mark hcut
    have hc : c = '\\' := (List.cons.inj hspelled).1
    have hlast : cut.mark.getLast? = some '\x7d' := by
      rw [hmark, braced, List.getLast?_append, ← List.cons_append, List.getLast?_append]
      rfl
    simp only [Sighting.spelling, String.toList_ofList, List.nil_append, List.append_nil]
    refine ⟨.inr (congrArg some hc), '\x7d', by decide, ?_⟩
    rw [List.getLast?_append, hlast]
    rfl
  · simp [seen?] at hseen

end Delimiters

end Formulary
