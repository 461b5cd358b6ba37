import Formulary.Proofs.Discovery.Surveys
import Formulary.Proofs.Search.Lines

/-! # What is found, line by line

What a discovery finds depends on the signs of its container only (`IsSurvey.eq_findsAmong`): every
line gives its sightings and its elements, and an element stands among the sightings of its line
where it stands in the text of it (`weave`).

A sighting that begins where an element stands comes before it, since its start is located in the
piece that the element is in (`sighting_side`). -/

namespace Formulary

open Formulary.Tree Document

/-- The find of a sign that is an element. -/
def Sign.find? : Sign → Option Find
  | .element m display => some (.element m display)
  | _ => none

/-- Whether a sighting begins at an offset or before it. -/
def Sighting.beginsBy (k : Nat) (x : Sighting) : Bool := x.start ≤ (k : Int)

/-- The elements of a line, which goes on at the offset `k`, among the sightings `seen` that are
still to come. -/
def weave (seen : List Sighting) (k : Nat) : List Sign → List Find
  | [] => seen.map .sighting
  | .char _ :: rest => weave seen (k + 1) rest
  | .stop :: rest => weave seen k rest
  | .element m display :: rest =>
    (seen.filter (Sighting.beginsBy k)).map .sighting ++ .element m display ::
      weave (seen.filter fun x => !x.beginsBy k) k rest

/-- The finds of some lines, of which the first one that holds more than blanks is the string with
the index `j`. -/
def findsAmong (j : Nat) : List (List Sign) → List Find
  | [] => []
  | line :: rest =>
    weave (Delimiters.findFrom {} j 0 (textOf line)) 0 line ++
      findsAmong (if (textOf line).all Text.isBlank then j else j + 1) rest

/-! ### What a line holds -/

theorem weave_perm (seen : List Sighting) (k : Nat) (line : List Sign) :
    (weave seen k line).Perm (seen.map .sighting ++ line.filterMap Sign.find?) := by
  induction line generalizing seen k with
  | nil => rw [weave, List.filterMap_nil, List.append_nil]
  | cons s rest ih =>
    cases s with
    | char c => exact ih seen (k + 1)
    | stop => exact ih seen k
    | element m display =>
      have hfilter := (List.filter_append_perm (Sighting.beginsBy k) seen).map Find.sighting
      rw [List.map_append] at hfilter
      have hcons : (Sign.element m display :: rest).filterMap Sign.find? =
          .element m display :: rest.filterMap Sign.find? := rfl
      rw [weave, hcons]
      refine ((((ih _ k).cons _).trans List.perm_middle.symm).append_left _).trans ?_
      rw [← List.append_assoc]
      exact hfilter.append_right _

theorem Delimiters.findFrom_eq_nil {string start : Nat} {s : List Char}
    (h : s.all Text.isBlank = true) : findFrom {} string start s = [] := by
  refine List.eq_nil_iff_forall_not_mem.2 fun x hx => ?_
  obtain ⟨-, before, after, rfl, -⟩ := findFrom_spec x hx
  have hblank : ∀ c, x.spelling.head? = some c → Text.isBlank c = true := fun c hc =>
    List.all_eq_true.1 h c (by simp [List.mem_of_mem_head? hc])
  rcases (findFrom_ends hx).1 with hhead | hhead <;> exact absurd (hblank _ hhead) (by decide)

/-- The elements among marks that are told anew, if nothing that is told of a piece is one. -/
theorem filterMap_find?_retell {tell : Piece → List Sign}
    (htell : ∀ p, (tell p).filterMap Sign.find? = []) (marks : List Mark) :
    (marks.flatMap (Mark.retell tell)).filterMap Sign.find? =
      (elementsOf marks).map fun (m, display) => .element m display := by
  induction marks with
  | nil => rfl
  | cons k rest ih =>
    rw [List.flatMap_cons, List.filterMap_append, ih]
    cases k with
    | piece p =>
      rw [Mark.retell, htell]
      rfl
    | stop => rfl
    | element m display => rfl

theorem filterMap_find?_plainly (p : Piece) : p.plainly.filterMap Sign.find? = [] := by
  rw [Piece.plainly, List.filterMap_map]
  exact List.filterMap_eq_nil_iff.2 fun c _ => rfl

theorem filterMap_find?_signs (marks : List Mark) :
    (signs marks).filterMap Sign.find? =
      (elementsOf marks).map fun (m, display) => .element m display :=
  filterMap_find?_retell filterMap_find?_plainly marks

theorem isBlankText_string (block : Block) :
    Text.isBlankText block.string = block.chars.all Text.isBlank := by
  rw [Text.isBlankText, Block.string_toList]

/-- What is seen in some blocks, of which the first one is the string with the index `j`. -/
def sightingsFrom (j : Nat) (blocks : List Block) : List Sighting :=
  ((blocks.map Block.string).zipIdx j).flatMap fun (s, i) => Delimiters.findFrom {} i 0 s.toList

theorem sightingsFrom_cons (j : Nat) (block : Block) (rest : List Block) :
    sightingsFrom j (block :: rest) =
      Delimiters.findFrom {} j 0 block.chars ++ sightingsFrom (j + 1) rest := by
  rw [sightingsFrom, List.map_cons, List.zipIdx_cons, List.flatMap_cons, ← Block.string_toList]
  rfl

theorem mem_sightingsFrom {j : Nat} {blocks : List Block} {x : Sighting}
    (h : x ∈ sightingsFrom j blocks) :
    ∃ i block, blocks[i]? = some block ∧ x ∈ Delimiters.findFrom {} (j + i) 0 block.chars := by
  induction blocks generalizing j with
  | nil => cases h
  | cons block rest ih =>
    rw [sightingsFrom_cons] at h
    rcases List.mem_append.1 h with h | h
    · exact ⟨0, block, rfl, h⟩
    · obtain ⟨i, b, hb, hx⟩ := ih h
      exact ⟨i + 1, b, hb, by rwa [show j + (i + 1) = j + 1 + i by omega]⟩

theorem findFrom_sublist_find {blocks : List Block} {j : Nat} {block : Block}
    (hget : blocks[j]? = some block) :
    (Delimiters.findFrom {} j 0 block.chars).Sublist
      (Delimiters.find {} (blocks.map Block.string)) := by
  have hmem : (block.string, j) ∈ (blocks.map Block.string).zipIdx := by
    refine List.mem_zipIdx_iff_getElem?.2 ?_
    rw [List.getElem?_map, hget]
    rfl
  rw [← Block.string_toList, Delimiters.find, List.flatMap_def]
  exact List.sublist_flatten_of_mem (List.mem_map.2 ⟨_, hmem, rfl⟩)

theorem filled_cons (block : Block) (rest : List Block) :
    filled (block :: rest) =
      if block.chars.all Text.isBlank then filled rest else block :: filled rest := by
  rw [filled, List.filter_cons, isBlankText_string]
  cases block.chars.all Text.isBlank <;> rfl

/-- What is found in some lines: the sightings in their blocks, and the elements in them. -/
theorem findsAmong_perm (j : Nat) (ls : List (List Mark)) :
    (findsAmong j (ls.map signs)).Perm
      ((sightingsFrom j (filled (ls.map piecesOf))).map .sighting ++
        (ls.flatMap elementsOf).map fun (m, display) => .element m display) := by
  induction ls generalizing j with
  | nil => rfl
  | cons line rest ih =>
    rw [List.map_cons, findsAmong, List.flatMap_cons, List.map_append, textOf_signs,
      List.map_cons, filled_cons]
    have hline := weave_perm (Delimiters.findFrom {} j 0 (piecesOf line).chars) 0 (signs line)
    rw [filterMap_find?_signs] at hline
    split
    · rename_i hblank
      rw [Delimiters.findFrom_eq_nil hblank] at hline ⊢
      rw [List.map_nil, List.nil_append] at hline
      exact (hline.append (ih j)).trans (List.perm_append_comm_assoc _ _ _)
    · rw [sightingsFrom_cons, List.map_append]
      refine (hline.append (ih (j + 1))).trans ?_
      rw [List.append_assoc, List.append_assoc]
      exact (List.perm_append_comm_assoc _ _ _).append_left _

/-! ### The order of what is found -/

section

variable {container : Node} {blocks : List Block}

/-- A place comes before another one in a container. -/
def IsAhead (container : Node) (u v : NodeId) : Prop :=
  container.labels.idxOf u < container.labels.idxOf v

theorem Find.key_element (m : NodeId) (display : Bool) :
    Find.key container blocks (.element m display) =
      ([0, (container.labels.idxOf m : Int), 0] : Key) := rfl

theorem Key.lt_trans {a b c : Key} (hab : a < b) (hbc : b < c) : a < c :=
  List.lt_trans hab hbc

/-- A sighting comes before the elements that stand behind its beginning in the line and after the
others. -/
theorem sighting_side {j : Nat} {before after : List Mark} {m : NodeId} {display : Bool}
    (hget : blocks[j]? = some (piecesOf before ++ piecesOf after))
    (hplaces : (placesOf (before ++ .element m display :: after)).Pairwise (IsAhead container))
    (hanchored : piecesOf before = [] → piecesOf after = []) {x : Sighting}
    (hx : x ∈ Delimiters.findFrom {} j 0 (piecesOf before ++ piecesOf after).chars) :
    (x.beginsBy (piecesOf before).chars.length = true →
      Find.key container blocks (.sighting x) < Find.key container blocks (.element m display)) ∧
    (x.beginsBy (piecesOf before).chars.length = false →
      Find.key container blocks (.element m display) < Find.key container blocks (.sighting x)) := by
  have hfind := (findFrom_sublist_find hget).subset hx
  obtain ⟨block, head, tail, c, hb, heq, hkey, hreach, hfirst⟩ := @exists_key container _ _ hfind
  have hstart : 0 ≤ x.start := (Delimiters.findFrom_spec x hx).start_le
  have hstring : x.string = j := (Delimiters.findFrom_spec x hx).1
  rw [hstring, Int.toNat_natCast, hget, Option.some.injEq] at hb
  subst hb
  rw [placesOf_append, List.pairwise_append] at hplaces
  have hbefore : ∀ c ∈ piecesOf before, IsAhead container c.node m := fun c hc =>
    hplaces.2.2 _ (mem_placesOf hc) _ (List.mem_cons_self ..)
  have hafter : ∀ c ∈ piecesOf after, IsAhead container m c.node := fun c hc =>
    (List.pairwise_cons.1 hplaces.2.1).1 _ (mem_placesOf hc)
  rw [hkey, Find.key_element, Key.triple_lt, Key.triple_lt, Sighting.beginsBy, decide_eq_true_iff,
    decide_eq_false_iff_not]
  have hbehind : ∀ mid, head = piecesOf before ++ mid → piecesOf after = mid ++ c :: tail →
      (x.start ≤ ((piecesOf before).chars.length : Int) →
        container.labels.idxOf c.node < container.labels.idxOf m) ∧
      container.labels.idxOf m < container.labels.idxOf c.node := by
    rintro mid rfl hafter'
    have hc := hafter c (by simp [hafter'])
    refine ⟨fun hle => ?_, hc⟩
    rcases hfirst with hnil | hlt
    · have := hanchored (List.append_eq_nil_iff.1 hnil).1
      simp [this] at hafter'
    · rw [Block.chars_append, List.length_append] at hlt
      omega
  rcases List.append_eq_append_iff.1 heq with ⟨mid, hhead, hafter'⟩ | ⟨mid, hbefore', hmid⟩
  · obtain ⟨hle, hlt⟩ := hbehind mid hhead hafter'
    exact ⟨fun h => .inl (Int.ofNat_lt.2 (hle h)), fun _ => .inl (Int.ofNat_lt.2 hlt)⟩
  · cases mid with
    | nil =>
      obtain ⟨hle, hlt⟩ := hbehind [] (by simp [hbefore']) hmid.symm
      exact ⟨fun h => .inl (Int.ofNat_lt.2 (hle h)), fun _ => .inl (Int.ofNat_lt.2 hlt)⟩
    | cons d mid =>
      obtain ⟨rfl, -⟩ := List.cons.inj hmid
      refine ⟨fun _ => .inl (Int.ofNat_lt.2 (hbefore c (by simp [hbefore']))), fun hnot => ?_⟩
      rw [hbefore', Block.chars_append, Block.chars_cons, List.length_append,
        List.length_append] at hnot
      omega

theorem weave_map_char (seen : List Sighting) (k : Nat) (s : List Char) (rest : List Sign) :
    weave seen k (s.map .char ++ rest) = weave seen (k + s.length) rest := by
  induction s generalizing k with
  | nil => rfl
  | cons c s ih =>
    rw [List.map_cons, List.cons_append, weave, ih, List.length_cons, Nat.add_assoc,
      Nat.add_comm 1]

theorem mem_weave {seen : List Sighting} {k : Nat} {marks : List Mark} {f : Find}
    (h : f ∈ weave seen k (signs marks)) :
    (∃ x ∈ seen, f = .sighting x) ∨
      ∃ m display, f = .element m display ∧ (m, display) ∈ elementsOf marks := by
  have hmem := (weave_perm _ _ _).mem_iff.1 h
  rw [filterMap_find?_signs] at hmem
  rcases List.mem_append.1 hmem with hmem | hmem
  · obtain ⟨x, hx, rfl⟩ := List.mem_map.1 hmem
    exact .inl ⟨x, hx, rfl⟩
  · obtain ⟨⟨m, display⟩, hm, rfl⟩ := List.mem_map.1 hmem
    exact .inr ⟨m, display, rfl, hm⟩

theorem mem_placesOf_of_mem_elementsOf {marks : List Mark} {m : NodeId} {display : Bool}
    (h : (m, display) ∈ elementsOf marks) : m ∈ placesOf marks := by
  obtain ⟨k, hk, hm⟩ := List.mem_filterMap.1 h
  refine List.mem_filterMap.2 ⟨k, hk, ?_⟩
  cases k with
  | piece p => cases hm
  | stop => cases hm
  | element m' display' => exact congrArg (some ·.1) (Option.some.inj hm)

/-- An element comes in document order between the sightings that begin in front of it and all that
follows. -/
theorem keySorted_element {seen : List Sighting} {k : Nat} {m : NodeId} {display : Bool}
    {later : List Find} (hsorted : KeySorted (Find.key container blocks) (seen.map .sighting))
    (hbefore : ∀ x ∈ seen, x.beginsBy k = true →
      Find.key container blocks (.sighting x) < Find.key container blocks (.element m display))
    (hlater : KeySorted (Find.key container blocks) later)
    (hbehind : ∀ f ∈ later,
      Find.key container blocks (.element m display) < Find.key container blocks f) :
    KeySorted (Find.key container blocks)
      ((seen.filter (Sighting.beginsBy k)).map .sighting ++ .element m display :: later) := by
  have hfirst : ∀ f ∈ (seen.filter (Sighting.beginsBy k)).map Find.sighting,
      Find.key container blocks f < Find.key container blocks (.element m display) := by
    intro f hf
    obtain ⟨x, hx, rfl⟩ := List.mem_map.1 hf
    exact hbefore x (List.mem_filter.1 hx).1 (List.mem_filter.1 hx).2
  refine List.pairwise_append.2 ⟨List.Pairwise.sublist (List.filter_sublist.map _) hsorted,
    List.pairwise_cons.2 ⟨hbehind, hlater⟩, fun f hf g hg => ?_⟩
  rcases List.mem_cons.1 hg with rfl | hg
  · exact hfirst f hf
  · exact Key.lt_trans (hfirst f hf) (hbehind g hg)

theorem weave_keySorted {j : Nat} {line : List Mark} (hstop : ∀ k ∈ line, k.isStop = false)
    (hplaces : (placesOf line).Pairwise (IsAhead container))
    (hanchored : IsAnchored hideNone none line) {before after : List Mark}
    (hline : line = before ++ after) {seen : List Sighting}
    (hseen : ∀ x ∈ seen, blocks[j]? = some (piecesOf line) ∧
      x ∈ Delimiters.findFrom {} j 0 (piecesOf line).chars)
    (hsorted : KeySorted (Find.key container blocks) (seen.map .sighting)) :
    KeySorted (Find.key container blocks)
      (weave seen (piecesOf before).chars.length (signs after)) := by
  induction after generalizing before seen with
  | nil => exact hsorted
  | cons k rest ih =>
    have hagain : line = before ++ [k] ++ rest := by simp [hline]
    cases k with
    | piece p =>
      rw [signs_cons, Mark.retell, Piece.plainly, weave_map_char, ← length_chars_append_piece]
      exact ih hagain hseen hsorted
    | stop => exact absurd (hstop .stop (by simp [hline])) (by decide)
    | element m display =>
      have hpieces : piecesOf line = piecesOf before ++ piecesOf rest := by simp [hline]
      have hempty : piecesOf before = [] → piecesOf rest = [] := fun hnil => by
        rw [hline] at hanchored
        rcases hanchored.of_append_element (fun k hk => hstop k (by simp [hline, hk]))
          (fun k hk => hstop k (by simp [hline, hk])) with ⟨p, hp, -⟩ | hrest
        · rw [hnil] at hp
          cases hp
        · exact hrest
      rw [hline] at hplaces
      have hside : ∀ x ∈ seen, _ := fun x hx =>
        sighting_side (hpieces ▸ (hseen x hx).1) hplaces hempty (hpieces ▸ (hseen x hx).2)
      have hlater : KeySorted (Find.key container blocks) (weave
          (seen.filter fun x => !x.beginsBy (piecesOf before).chars.length)
          (piecesOf before).chars.length (signs rest)) := by
        have hsub := List.filter_sublist (l := seen)
          (p := fun x => !Sighting.beginsBy (piecesOf before).chars.length x)
        have hrest := ih hagain (fun x hx => hseen x (hsub.subset hx))
          (List.Pairwise.sublist (hsub.map _) hsorted)
        rwa [piecesOf_append, piecesOf_element_cons, piecesOf_nil, List.append_nil] at hrest
      rw [signs_cons, Mark.retell, List.singleton_append, weave]
      refine keySorted_element hsorted (fun x hx => (hside x hx).1) hlater fun f hf => ?_
      rcases mem_weave hf with ⟨x, hx, rfl⟩ | ⟨m', display', rfl, hm'⟩
      · refine (hside x (List.mem_of_mem_filter hx)).2 ?_
        simpa using (List.mem_filter.1 hx).2
      · rw [Find.key_element, Find.key_element, Key.triple_lt]
        rw [placesOf_append] at hplaces
        exact .inl (Int.ofNat_lt.2 ((List.pairwise_cons.1 (List.pairwise_append.1 hplaces).2.1).1
          _ (mem_placesOf_of_mem_elementsOf hm')))

/-- The find is at one of some places. -/
def Find.IsAt (container : Node) (blocks : List Block) (places : List NodeId) (f : Find) : Prop :=
  ∃ u ∈ places, ∃ n : Int, f.key container blocks = [0, (container.labels.idxOf u : Int), n]

theorem isAt_sighting {j : Nat} {block : Block} (hget : blocks[j]? = some block) {x : Sighting}
    (hx : x ∈ Delimiters.findFrom {} j 0 block.chars) :
    (Find.sighting x).IsAt container blocks (block.map Piece.node) := by
  obtain ⟨b, before, after, c, hb, heq, hkey, -⟩ :=
    @exists_key container _ _ ((findFrom_sublist_find hget).subset hx)
  rw [(Delimiters.findFrom_spec x hx).1, Int.toNat_natCast, hget, Option.some.injEq] at hb
  subst hb
  exact ⟨c.node, by simp [heq], _, hkey⟩

theorem isAt_element {m : NodeId} {places : List NodeId} (h : m ∈ places) (display : Bool) :
    (Find.element m display).IsAt container blocks places := ⟨m, h, 0, rfl⟩

theorem Find.IsAt.mono {places others : List NodeId} {f : Find} (h : f.IsAt container blocks places)
    (hsub : ∀ u ∈ places, u ∈ others) : f.IsAt container blocks others :=
  let ⟨u, hu, n, hkey⟩ := h
  ⟨u, hsub u hu, n, hkey⟩

theorem Find.IsAt.key_lt {places others : List NodeId} {f g : Find}
    (hf : f.IsAt container blocks places) (hg : g.IsAt container blocks others)
    (h : ∀ u ∈ places, ∀ v ∈ others, IsAhead container u v) :
    f.key container blocks < g.key container blocks := by
  obtain ⟨u, hu, n, hkey⟩ := hf
  obtain ⟨v, hv, n', hkey'⟩ := hg
  rw [hkey, hkey', Key.triple_lt]
  exact .inl (Int.ofNat_lt.2 (h u hu v hv))

theorem nodes_subset_placesOf (marks : List Mark) :
    ∀ u ∈ (piecesOf marks).map Piece.node, u ∈ placesOf marks := fun u hu => by
  obtain ⟨c, hc, rfl⟩ := List.mem_map.1 hu
  exact mem_placesOf hc

/-- The lines with more than blanks in them are the blocks from the one with the index `j` on. -/
def AreBlocksFrom (blocks : List Block) (j : Nat) (ls : List (List Mark)) : Prop :=
  ∀ i block, (filled (ls.map piecesOf))[i]? = some block → blocks[j + i]? = some block

theorem AreBlocksFrom.head {j : Nat} {line : List Mark} {rest : List (List Mark)}
    (h : AreBlocksFrom blocks j (line :: rest)) {x : Sighting}
    (hx : x ∈ Delimiters.findFrom {} j 0 (piecesOf line).chars) :
    blocks[j]? = some (piecesOf line) := by
  have hfilled : ¬(piecesOf line).chars.all Text.isBlank = true := fun hblank => by
    rw [Delimiters.findFrom_eq_nil hblank] at hx
    cases hx
  refine h 0 _ ?_
  rw [List.map_cons, filled_cons, if_neg hfilled]
  rfl

theorem AreBlocksFrom.tail {j : Nat} {line : List Mark} {rest : List (List Mark)}
    (h : AreBlocksFrom blocks j (line :: rest)) :
    AreBlocksFrom blocks (if (piecesOf line).chars.all Text.isBlank then j else j + 1) rest := by
  intro i block hblock
  rw [AreBlocksFrom, List.map_cons, filled_cons] at h
  split
  · rename_i hblank
    rw [if_pos hblank] at h
    exact h i block hblock
  · rename_i hfilled
    rw [if_neg hfilled] at h
    rw [Nat.add_assoc, Nat.add_comm 1]
    exact h (i + 1) block hblock

theorem isAt_findsAmong {j : Nat} {ls : List (List Mark)} (hblocks : AreBlocksFrom blocks j ls)
    {f : Find} (h : f ∈ findsAmong j (ls.map signs)) :
    f.IsAt container blocks (ls.flatMap placesOf) := by
  rcases List.mem_append.1 ((findsAmong_perm j ls).mem_iff.1 h) with h | h
  · obtain ⟨x, hx, rfl⟩ := List.mem_map.1 h
    obtain ⟨i, block, hblock, hx⟩ := mem_sightingsFrom hx
    refine (isAt_sighting (hblocks i block hblock) hx).mono fun u hu => ?_
    obtain ⟨line, hline, rfl⟩ := List.mem_map.1 (List.mem_filter.1 (List.mem_of_getElem? hblock)).1
    exact List.mem_flatMap.2 ⟨line, hline, nodes_subset_placesOf line u hu⟩
  · obtain ⟨⟨m, display⟩, hm, rfl⟩ := List.mem_map.1 h
    obtain ⟨line, hline, hm⟩ := List.mem_flatMap.1 hm
    exact isAt_element (List.mem_flatMap.2 ⟨line, hline, mem_placesOf_of_mem_elementsOf hm⟩) display

/-- What is found in the lines of a container comes in document order. -/
theorem findsAmong_keySorted {j : Nat} {ls : List (List Mark)}
    (hblocks : AreBlocksFrom blocks j ls) (hstop : ∀ line ∈ ls, ∀ k ∈ line, k.isStop = false)
    (hplaces : (ls.flatMap placesOf).Pairwise (IsAhead container))
    (hanchored : ∀ line ∈ ls, IsAnchored hideNone none line)
    (hpieces : blocks.flatten.Pairwise (Piece.Precedes container)) :
    KeySorted (Find.key container blocks) (findsAmong j (ls.map signs)) := by
  induction ls generalizing j with
  | nil => exact .nil
  | cons line rest ih =>
    rw [List.flatMap_cons, List.pairwise_append] at hplaces
    obtain ⟨hfirst, hrest, hacross⟩ := hplaces
    have hseen : ∀ x ∈ Delimiters.findFrom {} j 0 (piecesOf line).chars,
        blocks[j]? = some (piecesOf line) ∧
          x ∈ Delimiters.findFrom {} j 0 (piecesOf line).chars := fun x hx => ⟨hblocks.head hx, hx⟩
    have hsorted : KeySorted (Find.key container blocks)
        ((Delimiters.findFrom {} j 0 (piecesOf line).chars).map .sighting) := by
      cases hnil : Delimiters.findFrom {} j 0 (piecesOf line).chars with
      | nil => exact .nil
      | cons x xs =>
        rw [← hnil]
        have hblock := (hseen x (by simp [hnil])).1
        exact List.Pairwise.sublist ((findFrom_sublist_find hblock).map _) (find_keySorted hpieces)
    rw [List.map_cons, findsAmong, textOf_signs]
    refine List.pairwise_append.2 ⟨?_, ih hblocks.tail
      (fun l hl => hstop l (List.mem_cons_of_mem _ hl)) hrest
      fun l hl => hanchored l (List.mem_cons_of_mem _ hl), fun f hf g hg => ?_⟩
    · exact weave_keySorted (hstop line (List.mem_cons_self ..)) hfirst
        (hanchored line (List.mem_cons_self ..)) (List.nil_append _).symm hseen hsorted
    · refine Find.IsAt.key_lt ?_ (isAt_findsAmong hblocks.tail hg) hacross
      rcases mem_weave hf with ⟨x, hx, rfl⟩ | ⟨m, display, rfl, hm⟩
      · exact (isAt_sighting (hseen x hx).1 (hseen x hx).2).mono (nodes_subset_placesOf line)
      · exact isAt_element (mem_placesOf_of_mem_elementsOf hm) display

end

/-! ### Discoveries -/

/-- What a session with some sources watches for in its container. -/
def Watch.start (sources : List Source) : Watch where
  reads := sources.any Source.readsStrings
  ignores := false
  seeks := sources.any fun source => !source.readsStrings

/-- The signs of a container for a session with some sources. -/
def signsOf (sources : List Source) (container : Node) : List Sign :=
  signs (marksAmong hideNone (.start sources) container.children)

/-- The blocks that the usual sources read. -/
def blocksRead (sources : List Source) (blocks : List Block) : List Block :=
  if sources.any Source.readsStrings then blocks else []

theorem blocksRead_eq_or (sources : List Source) (blocks : List Block) :
    blocksRead sources blocks = blocks ∨ blocksRead sources blocks = [] := by
  rw [blocksRead]
  split
  · exact .inl rfl
  · exact .inr rfl

section

variable {container : Node} {sources : List Source}

theorem filled_lines (sources : List Source) (container : Node) :
    filled ((lines Mark.isStop []
      (marksAmong hideNone (.start sources) container.children)).map piecesOf) =
        blocksRead sources (({} : Extraction).find container) := by
  rw [← blocksOf_eq, blocksRead]
  split
  · rename_i hreads
    rw [find_eq_blocksOf container (Watch.start sources).seeks, ← hreads]
    rfl
  · rename_i hreads
    have hquiet := @areQuiet_marksAmong hideNone (.start sources)
      (Bool.not_eq_true _ ▸ hreads) container.children
    have hnil := hquiet.blocksOf_append [] []
    rw [List.append_nil] at hnil
    exact congrArg filled hnil

/-- The finds of the usual sources are the sightings in the blocks that are read and the elements
that are sought. -/
theorem findsOf_perm (hs : Source.AreUsual sources) (container : Node) (blocks : List Block) :
    (findsOf sources container blocks).Perm
      ((Delimiters.find {} ((blocksRead sources blocks).map Block.string)).map .sighting ++
        (if sources.any (fun source => !source.readsStrings) then
          (Source.mathAmong container.children).map sought else []).map fun (m, display) =>
            .element m display) := by
  have hsought : (fun n => Find.element n.label (Source.isDisplay n)) =
      (fun (m, display) => Find.element m display) ∘ sought := rfl
  rcases hs with rfl | rfl | rfl | rfl
  · simp [findsOf, blocksRead, Source.finds, Source.readsStrings, Source.tex, Source.sightings]
  · simp [findsOf, blocksRead, Source.finds, Source.readsStrings, Source.mathml, Delimiters.find,
      hsought]
  · simp [findsOf, blocksRead, Source.finds, Source.readsStrings, Source.tex, Source.mathml,
      Source.sightings, hsought]
  · simpa [findsOf, blocksRead, Source.finds, Source.readsStrings, Source.tex, Source.mathml,
      Source.sightings, hsought] using List.perm_append_comm

/-- Finds in document order are those in the lines of some marks, if these hold the blocks and the
elements that were found. -/
theorem KeySorted.eq_findsAmong {blocks read : List Block} {finds : List Find} {marks : List Mark}
    (h : KeySorted (Find.key container blocks) finds)
    (hpieces : blocks.flatten.Pairwise (Piece.Precedes container))
    (hplaces : (placesOf marks).Pairwise (IsAhead container))
    (hanchored : IsAnchored hideNone none marks)
    (hfilled : filled ((lines Mark.isStop [] marks).map piecesOf) = read)
    (hread : read = blocks ∨ read = [])
    (hperm : finds.Perm ((Delimiters.find {} (read.map Block.string)).map .sighting ++
      (elementsOf marks).map fun (m, display) => .element m display)) :
    finds = findsAmong 0 (lines Sign.isStop [] (signs marks)) := by
  have hall := filterMap_lines (f := Mark.place?) rfl [] marks
  have helements : (lines Mark.isStop [] marks).flatMap elementsOf = elementsOf marks :=
    filterMap_lines (f := Mark.element?) rfl [] marks
  have hlines := findsAmong_perm 0 (lines Mark.isStop [] marks)
  rw [helements, hfilled] at hlines
  rw [lines_nil_signs]
  refine h.eq_of_perm (findsAmong_keySorted (fun i block hblock => ?_)
    (fun line hline => isStop_of_mem_lines (by simp) hline) ?_
    (fun line hline => @IsAnchored.of_mem_lines _ [] _ _ hanchored hline) hpieces)
    (hperm.trans hlines.symm)
  · rw [hfilled] at hblock
    rw [Nat.zero_add]
    rcases hread with rfl | rfl
    · exact hblock
    · cases hblock
  · exact hall ▸ hplaces

theorem pairwise_placesOf (hlabels : container.labels.Nodup) (hide : NodeId → Bool) (w : Watch) :
    (placesOf (marksAmong hide w container.children)).Pairwise (IsAhead container) :=
  (pairwise_idxOf hlabels).sublist
    ((placesOf_marksAmong_sublist _).trans (labels_below_sublist container))

/-- The finds of a discovery are those in the lines of the container. -/
theorem IsSurvey.eq_findsAmong {blocks : List Block} {finds : List Find}
    (h : IsSurvey container blocks sources finds) (hlabels : container.labels.Nodup)
    (hblocks : blocks = ({} : Extraction).find container) (hs : Source.AreUsual sources) :
    finds = findsAmong 0 (lines Sign.isStop [] (signsOf sources container)) := by
  refine h.sorted.eq_findsAmong (hblocks ▸ find_pairwise_precedes {} hlabels)
    (pairwise_placesOf hlabels hideNone _) (isAnchored_marksAmong hideNone _ _)
    (filled_lines sources container) (hblocks ▸ blocksRead_eq_or sources blocks) ?_
  rw [elementsOf_marksAmong, ← hblocks]
  exact h.perm.trans (findsOf_perm hs container blocks)

end

end Formulary
