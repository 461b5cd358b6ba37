import Formulary.Proofs.Delimiters.TextParts

/-! # What any delimiters cut out of a text

Whatever the delimiters are, as long as no opener is empty: what is found stands in order, does not
overlap, and spells its stretch of the text, either between an opener and the closer that the last
pair with this opener names, or as a whole environment (`find_slices`).

The search comes to an end because it never stands still.  An opener is not empty, and a closer that
is passed over inside braces is not either: an empty one is found at once, before any brace is open
(`Closer.Seeks.length?_ne`). -/

namespace Formulary

/-- The sighting stands between two offsets of a string, the first below the second, and spells what
is between them. -/
def Sighting.IsSlice (x : Sighting) (strings : List String) : Prop :=
  ∃ (j start stop : Nat) (s : String), strings[j]? = some s ∧ x.string = j ∧ x.start = start ∧
    x.stop = stop ∧ start < stop ∧ stop ≤ s.length ∧
    (s.toList.take stop).drop start = x.opener.toList ++ x.math.toList ++ x.closer.toList

/-- The sighting is an environment with its two ends, in delimiters that are empty. -/
structure Sighting.IsEnvironment (x : Sighting) : Prop where
  opener : x.opener = ""
  closer : x.closer = ""
  display : x.display = true
  whole : ∃ name blanks body blanks' : List Char, '\x7d' ∉ name ∧
    (∀ b ∈ blanks, Text.isBlank b = true) ∧ (∀ b ∈ blanks', Text.isBlank b = true) ∧
    x.math.toList = "\\begin".toList ++ blanks ++ Delimiters.braced name ++ body ++
      ("\\end".toList ++ blanks' ++ Delimiters.braced name)

namespace Delimiters

/-! ### Openers and their closers -/

/-- The last pair with an opener: what it says of the opener counts. -/
def IsLastPair (delims : Delimiters) (opener closer : String) (display : Bool) : Prop :=
  ∃ before after, delims.pairs = before ++ ((opener, closer), display) :: after ∧
    ∀ pair ∈ after, pair.1.1 ≠ opener

theorem exists_isLastPair {delims : Delimiters} {opener : String} (h : opener ∈ delims.openers) :
    ∃ closer display, delims.IsLastPair opener closer display ∧
      delims.opening opener = .math closer.toList display := by
  obtain ⟨pair, hpair, hopener⟩ := List.mem_map.1 (List.mem_mergeSort.1 h)
  have hsome : (delims.pairs.reverse.find? fun pair => pair.1.1 = opener).isSome = true :=
    List.find?_isSome.2 ⟨pair, List.mem_reverse.2 hpair, decide_eq_true hopener⟩
  obtain ⟨⟨⟨opener', closer⟩, display⟩, hfound⟩ := Option.isSome_iff_exists.1 hsome
  obtain ⟨hsame, after, before, hsplit, hafter⟩ := List.find?_eq_some_iff_append.1 hfound
  obtain rfl : opener' = opener := of_decide_eq_true hsame
  refine ⟨closer, display, ⟨before.reverse, after.reverse, ?_, fun pair hpair => ?_⟩, ?_⟩
  · have hpairs := congrArg List.reverse hsplit
    rw [List.reverse_reverse] at hpairs
    simpa using hpairs
  · simpa using hafter pair (List.mem_reverse.1 hpair)
  · rw [opening, hfound]

theorem IsLastPair.mem {delims : Delimiters} {opener closer : String} {display : Bool}
    (h : delims.IsLastPair opener closer display) : ((opener, closer), display) ∈ delims.pairs := by
  obtain ⟨before, after, hpairs, -⟩ := h
  rw [hpairs]
  exact List.mem_append_right _ (List.mem_cons_self ..)

/-- What is found stands between an opener and its closer or is an environment. -/
theorem findFrom_kind {delims : Delimiters} {string start : Nat} {s : List Char} {x : Sighting}
    (h : x ∈ delims.findFrom string start s) :
    delims.IsLastPair x.opener x.closer x.display ∨ x.IsEnvironment := by
  obtain ⟨begin, more, c, t, others, opening, hopen, hseen⟩ :=
    (scans_findFrom delims string start s).exists_opening h
  obtain ⟨-, hkind⟩ := opening?_eq_some hopen
  rcases hkind with ⟨opener, hmem, rfl, hspelled⟩ | ⟨name, blanks, rfl, hname, hblanks, hspelled⟩ | rfl
  · left
    obtain ⟨closer, display, hlast, hopening⟩ := exists_isLastPair hmem
    rw [hopening] at hseen
    obtain ⟨cut, hcut, heq⟩ := Option.map_eq_some_iff.1 hseen
    obtain ⟨rfl, -⟩ := Prod.mk.inj heq
    have hmark : cut.mark = closer.toList := closing?_mark hcut
    simpa only [hspelled, hmark, String.ofList_toList] using hlast
  · right
    obtain ⟨cut, hcut, heq⟩ := Option.map_eq_some_iff.1 hseen
    obtain ⟨rfl, -⟩ := Prod.mk.inj heq
    obtain ⟨blanks', hblanks', hmark⟩ := closing?_mark hcut
    refine ⟨rfl, rfl, rfl, name, blanks, cut.body, blanks', hname, hblanks, hblanks', ?_⟩
    rw [String.toList_ofList, hspelled, hmark]
  · simp [seen?] at hseen

theorem spelling_ne_nil {delims : Delimiters} (hopeners : ∀ pair ∈ delims.pairs, pair.1.1 ≠ "")
    {x : Sighting} (h : delims.IsLastPair x.opener x.closer x.display ∨ x.IsEnvironment) :
    x.spelling ≠ [] := by
  rw [Sighting.spelling]
  rcases h with h | h
  · have hne : x.opener.toList ≠ [] := fun hnil => hopeners _ h.mem (String.toList_inj.1 hnil)
    simp [hne]
  · obtain ⟨name, blanks, body, blanks', -, -, -, hwhole⟩ := h.whole
    rw [hwhole]
    simp [braced]

/-! ### The search moves on -/

/-- The search for a closer in the text `s`, where no brace is open, comes to the text `t`, where
`depth` are. -/
inductive Closer.Seeks (closer : Closer) (s : List Char) : Nat → List Char → Prop
  | here : Seeks closer s 0 s
  | passed {depth : Nat} {c : Char} {rest : List Char} (before : Seeks closer s depth (c :: rest))
    (hnone : (if depth = 0 then closer.length? (c :: rest) else none) = none) :
    Seeks closer s (depthAfter depth (c :: rest.take (closer.passed c rest)))
      (rest.drop (closer.passed c rest))

/-- Where the search comes to it does what is left to do from its beginning. -/
theorem Closer.Seeks.closing?_eq {closer : Closer} {s t : List Char} {depth : Nat}
    (h : closer.Seeks s depth t) :
    ∃ before, s = before ++ t ∧ closing? closer 0 s =
      (closing? closer depth t).map fun cut => { cut with body := before ++ cut.body } := by
  induction h with
  | here => exact ⟨[], rfl, Option.map_id'.symm⟩
  | @passed depth c rest _ hnone ih =>
    obtain ⟨before, hsplit, hclosing⟩ := ih
    refine ⟨before ++ c :: rest.take (closer.passed c rest), ?_, ?_⟩
    · rw [hsplit, List.append_assoc, List.cons_append, List.take_append_drop]
    · rw [hclosing, closing?_cons hnone, Option.map_map]
      refine congrArg (fun f => Option.map f _) (funext fun cut => ?_)
      simp only [Function.comp_apply, List.append_assoc]

/-- Where the search comes to a closer inside braces, the closer is not empty. -/
theorem Closer.Seeks.length?_ne {closer : Closer} {s t : List Char} {depth : Nat}
    (h : closer.Seeks s depth t) (hdepth : 0 < depth) : closer.length? t ≠ some 0 := by
  intro hn
  have hspelled := (Closer.length?_eq_some hn).2
  rw [List.take_zero] at hspelled
  cases closer with
  | environment name =>
    obtain ⟨blanks, -, hmark⟩ := hspelled
    exact absurd hmark (by simp)
  | delimiter text =>
    obtain rfl : [] = text := hspelled
    -- an empty closer is where the search begins, so it never leaves from there
    have hzero : depth = 0 := by
      clear hn hdepth
      induction h with
      | here => rfl
      | passed _ hnone ih =>
        rw [if_pos ih] at hnone
        cases hnone
    exact Nat.ne_of_gt hdepth hzero

/-! ### Slices -/

/-- With any delimiters whose openers are not empty, what is found in some strings stands in their
order and does not overlap.  Each of it is a slice of its string, spelled by its delimiters and the
mathematics between them: an opener and the closer that the last pair with it names, or empty ones
around an environment.  Nothing keeps the search from coming to an end: every opener has a closer,
and the search for one does not stand still, since what it passes over inside braces is not empty.
-/
theorem find_slices {delims : Delimiters} (hopeners : ∀ pair ∈ delims.pairs, pair.1.1 ≠ "")
    (strings : List String) :
    ((delims.find strings).Pairwise fun x y =>
      x.string < y.string ∨ x.string = y.string ∧ x.stop ≤ y.start) ∧
    (∀ x ∈ delims.find strings, x.IsSlice strings ∧
      (delims.IsLastPair x.opener x.closer x.display ∨ x.IsEnvironment)) ∧
    (∀ opener ∈ delims.openers, ∃ closer display, delims.IsLastPair opener closer display ∧
      delims.opening opener = .math closer.toList display) ∧
    ∀ (closer : Closer) (s t : List Char) (depth : Nat), closer.Seeks s depth t →
      (∃ before, s = before ++ t ∧ closing? closer 0 s =
        (closing? closer depth t).map fun cut => { cut with body := before ++ cut.body }) ∧
      (0 < depth → closer.length? t ≠ some 0) := by
  refine ⟨find_pairwise delims strings, fun x hx => ?_, fun opener => exists_isLastPair,
    fun closer s t depth h => ⟨h.closing?_eq, h.length?_ne⟩⟩
  obtain ⟨j, s, hs, hx, hstring, before, after, hsplit, hstart, hstop⟩ := find_spec hx
  have hkind := findFrom_kind hx
  have hpos := List.length_pos_iff.2 (spelling_ne_nil hopeners hkind)
  have hlen := congrArg List.length hsplit
  rw [List.length_append, List.length_append, String.length_toList] at hlen
  have hfit : (before ++ x.spelling).length = before.length + x.spelling.length :=
    List.length_append
  refine ⟨⟨j, before.length, before.length + x.spelling.length, s, hs, hstring, by omega, by omega,
    by omega, by omega, ?_⟩, hkind⟩
  rw [hsplit, List.take_left' hfit, List.drop_left]
  rfl

/-- Delimiters made of braces, with an empty closer and an opener that is given twice. -/
def odd : Delimiters where
  inline := [("\x7b\x7b", ""), ("\\[", "\x7b")]
  display := [("\\[", "]")]

theorem openers_odd : odd.openers = ["\x7b\x7b", "\\[", "\\["] := by
  simp +decide [openers, pairs, odd, List.mergeSort]

theorem find_slices_odd :
    let x : Sighting :=
      { math := "", opener := "\x7b\x7b", closer := "", string := 0, start := 0, stop := 2
        display := false }
    let y : Sighting :=
      { math := "\x7b]\x7d", opener := "\\[", closer := "]", string := 0, start := 2, stop := 8
        display := true }
    let strings := ["\x7b\x7b\\[\x7b]\x7d]"]
    (∀ pair ∈ odd.pairs, pair.1.1 ≠ "") ∧ odd.find strings = [x, y] ∧
      [x, y].Pairwise (fun x y => x.string < y.string ∨ x.string = y.string ∧ x.stop ≤ y.start) ∧
      ∀ z ∈ [x, y], z.IsSlice strings ∧
        (odd.IsLastPair z.opener z.closer z.display ∨ z.IsEnvironment) := by
  intro x y strings
  have hopeners : ∀ pair ∈ odd.pairs, pair.1.1 ≠ "" := by decide
  have hfind : odd.find strings = [x, y] := by
    have hopens : odd.opening? ('\x7b' :: "\x7b\\[\x7b]\x7d]".toList) = some (.math [] false, 1) ∧
        odd.opening? ('\\' :: "[\x7b]\x7d]".toList) = some (.math [']'] true, 1) := by
      simp only [opening?, delimiterAt?, openers_odd]
      decide +kernel
    have hempty : seen? 0 0 ['\x7b', '\x7b'] "\\[\x7b]\x7d]".toList (.math [] false) =
        some (x, "\\[\x7b]\x7d]".toList) := by
      decide +kernel
    have hbracket : seen? 0 2 ['\\', '['] "\x7b]\x7d]".toList (.math [']'] true) = some (y, []) := by
      decide +kernel
    have hscan : Scans odd 0 0 "\x7b\x7b\\[\x7b]\x7d]".toList [x, y] 8 [] :=
      .seen hopens.1 hempty (.seen hopens.2 hbracket (.refl 8 []))
    exact hscan.find_singleton
  obtain ⟨hordered, hslices, -⟩ := find_slices hopeners strings
  rw [hfind] at hordered hslices
  exact ⟨hopeners, hfind, hordered, hslices⟩

end Delimiters

end Formulary
