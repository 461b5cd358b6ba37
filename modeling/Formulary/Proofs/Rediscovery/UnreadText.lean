import Formulary.Proofs.Rediscovery.PlacedForms

/-! # What is left in the text of a rendered document

Typeset forms break the text of a document.  What a search sees in a line of the rest is what it saw
in the line before and could not read (`Session.Rendered.failures_line`), and the lines that are
left are those in no element that has been replaced.  So this is what a search sees in the strings
of the rendered document (`Session.Rendered.map_content_rendered`). -/

namespace Formulary

open Formulary.Tree Document Insertion

theorem flatMap_filter {α β : Type} (p : α → Bool) (f : α → List β) (l : List α) :
    (l.filter p).flatMap f = l.flatMap fun a => if p a then f a else [] := by
  induction l with
  | nil => rfl
  | cons a rest ih =>
    rw [List.filter_cons, List.flatMap_cons, ← ih]
    cases p a <;> rfl

/-! ### What cannot be read -/

theorem map_content_filter {xs ys : List Sighting}
    (h : xs.map Sighting.content = ys.map Sighting.content) :
    (xs.filter fun x => x.error?.isSome).map Sighting.content =
      (ys.filter fun x => x.error?.isSome).map Sighting.content := by
  -- whether a sighting can be read depends on its mathematics only
  have hfilter : ∀ zs : List Sighting, (zs.filter fun x => x.error?.isSome).map Sighting.content =
      (zs.map Sighting.content).filter fun c =>
        (Sighting.error? { (default : Sighting) with math := c.1 }).isSome := fun zs => by
    rw [List.filter_map]
    rfl
  rw [hfilter, hfilter, h]

/-- What the search sees in a text and cannot read. -/
def failuresIn (s : List Char) : List (String × String × String × Bool) :=
  ((Delimiters.findFrom {} 0 0 s).filter fun x => x.error?.isSome).map Sighting.content

theorem map_content_failures (string start : Nat) (s : List Char) :
    ((Delimiters.findFrom {} string start s).filter fun x => x.error?.isSome).map
      Sighting.content = failuresIn s :=
  map_content_filter (Delimiters.findFrom_content {} 0 0 string start s)

theorem failuresIn_eq_nil {s : List Char} (h : s.all Text.isBlank = true) : failuresIn s = [] := by
  rw [failuresIn, Delimiters.findFrom_eq_nil h]
  rfl

/-- What the search sees in some blocks and cannot read, apart from what `lies` holds of, if that
holds of everything in a block or of nothing. -/
theorem map_content_find {blocks : List Block} {lies : Sighting → Bool} {gone : Block → Bool}
    (h : ∀ j block, blocks[j]? = some block → ∀ x ∈ Delimiters.findFrom {} j 0 block.chars,
      lies x = gone block) :
    (((Delimiters.find {} (blocks.map Block.string)).filter fun x => x.error?.isSome).filter
        fun x => !lies x).map Sighting.content =
      (blocks.filter fun block => !gone block).flatMap fun block => failuresIn block.chars := by
  rw [flatMap_filter, Delimiters.find, List.zipIdx_map, List.flatMap_map, List.filter_flatMap,
    List.filter_flatMap, List.map_flatMap]
  conv_rhs => rw [← List.zipIdx_map_fst 0 blocks, List.flatMap_map]
  refine List.flatMap_congr fun e hmem => ?_
  obtain ⟨block, j⟩ := e
  have hlies := h j block (List.mem_zipIdx_iff_getElem?.1 hmem)
  simp only [Prod.map, id_eq, Block.string_toList]
  cases hgone : gone block with
  | true =>
    rw [if_neg (by decide), List.filter_eq_nil_iff.2 fun x hx => ?_, List.map_nil]
    rw [hlies x (List.mem_filter.1 hx).1, hgone]
    decide
  | false =>
    rw [if_pos (by decide), List.filter_eq_self.2 fun x hx => ?_, map_content_failures]
    rw [hlies x (List.mem_filter.1 hx).1, hgone]
    rfl

/-! ### Lines -/

theorem map_content_stringsIn (all : List Sign) :
    (Delimiters.find {} (stringsIn all)).map Sighting.content =
      (lines Sign.isStop [] all).flatMap fun line =>
        (Delimiters.findFrom {} 0 0 (textOf line)).map Sighting.content := by
  have hfind : ∀ strings : List String, (Delimiters.find {} strings).map Sighting.content =
      strings.flatMap fun s => (Delimiters.findFrom {} 0 0 s.toList).map Sighting.content :=
    fun strings => by
      rw [Delimiters.find, List.map_flatMap]
      conv_rhs => rw [← List.zipIdx_map_fst 0 strings, List.flatMap_map]
      exact List.flatMap_congr fun p _ => Delimiters.findFrom_content {} 0 0 p.2 0 p.1.toList
  rw [hfind, stringsIn, flatMap_filter, List.flatMap_map]
  refine List.flatMap_congr fun line _ => ?_
  rw [String.toList_ofList, Text.isBlankText, String.toList_ofList]
  cases hblank : (textOf line).all Text.isBlank with
  | true =>
    rw [Delimiters.findFrom_eq_nil hblank]
    rfl
  | false => rfl

/-- The lines of marks that are told anew are those of their lines. -/
theorem flatMap_lines_retell {β : Type} (g : List Sign → List β) (tell : Piece → List Sign)
    (pending marks : List Mark) :
    (lines Sign.isStop [] ((pending ++ marks).flatMap (Mark.retell tell))).flatMap g =
      (lines Mark.isStop pending marks).flatMap fun line =>
        (lines Sign.isStop [] (line.flatMap (Mark.retell tell))).flatMap g := by
  induction marks generalizing pending with
  | nil => rw [List.append_nil, lines, List.flatMap_singleton]
  | cons k rest ih =>
    rw [lines]
    split
    · rename_i hstop
      obtain rfl : k = .stop := of_decide_eq_true hstop
      have hsign : Sign.stop.isStop = true := rfl
      rw [List.flatMap_append, List.flatMap_cons, Mark.retell, List.singleton_append,
        lines_append_stop hsign, List.flatMap_append, List.flatMap_cons, ← ih []]
      rfl
    · rw [← ih, List.append_assoc, List.singleton_append]

theorem mem_of_mem_lines {α : Type} {isStop : α → Bool} {pending l line : List α}
    (h : line ∈ lines isStop pending l) {a : α} (ha : a ∈ line) : a ∈ pending ∨ a ∈ l := by
  induction l generalizing pending with
  | nil => exact .inl (List.mem_singleton.1 h ▸ ha)
  | cons b rest ih =>
    rw [lines] at h
    split at h
    · rcases List.mem_cons.1 h with rfl | h
      · exact .inl ha
      · exact .inr (List.mem_cons_of_mem _ ((ih h).resolve_left List.not_mem_nil))
    · rcases ih h with hmem | hmem
      · refine (List.mem_append.1 hmem).imp_right fun hb => ?_
        rw [List.mem_singleton.1 hb]
        exact List.mem_cons_self ..
      · exact .inr (List.mem_cons_of_mem _ hmem)

theorem mem_textOf {line : List Sign} {c : Char} (h : c ∈ textOf line) : .char c ∈ line := by
  obtain ⟨k, hk, hc⟩ := List.mem_filterMap.1 h
  cases k with
  | char d => exact Option.some.inj hc ▸ hk
  | stop => cases hc
  | element => cases hc

theorem Insertion.mem_of_char_mem {xs : List Insertion} {j i : Nat} {s : List Char} {c : Char}
    (h : .char c ∈ shownText xs j i s) : c ∈ s := by
  induction s generalizing i with
  | nil => cases h
  | cons d rest ih =>
    rcases List.mem_append.1 h with h | h
    · rw [shownAt] at h
      split at h
      · simp only [List.mem_singleton, Symbol.char.injEq] at h
        exact h ▸ List.mem_cons_self ..
      · split at h <;> simp at h
    · exact List.mem_cons_of_mem _ (ih h)

theorem char_mem_tellOf {blocks : List Block} {xs : List Insertion} {p : Piece} {c : Char}
    (h : .char c ∈ tellOf blocks xs Symbol.broken p) : c ∈ p.text.toList := by
  rw [tellOf] at h
  split at h
  · obtain ⟨d, hd, heq⟩ := List.mem_map.1 h
    exact Sign.char.inj heq ▸ hd
  · obtain ⟨symbol, hsymbol, hc⟩ := List.mem_flatMap.1 h
    cases symbol with
    | char d =>
      obtain rfl : c = d := Sign.char.inj (List.mem_singleton.1 hc)
      exact mem_of_char_mem hsymbol
    | place id => simp [Symbol.broken] at hc

theorem element?_eq_none_of_mem {hide : NodeId → Bool} {ts : List Node} {k : Mark}
    (h : k ∈ marksAmong hide ⟨true, false, false⟩ ts) : k.element? = none := by
  rw [marksAmong_eq_flatMap] at h
  obtain ⟨t, -, h⟩ := List.mem_flatMap.1 h
  have hfilter := @marksIn_filter hide ⟨true, false, false⟩ true false t
  have hkept := List.filter_eq_self.1 hfilter.symm k h
  cases k with
  | element => cases hkept
  | piece => rfl
  | stop => rfl

theorem flatMap_retell (tell : Piece → List Sign) {line : List Mark}
    (hstop : ∀ k ∈ line, k.isStop = false) (hnone : ∀ k ∈ line, k.element? = none) :
    line.flatMap (Mark.retell tell) = (piecesOf line).flatMap tell := by
  induction line with
  | nil => rfl
  | cons k rest ih =>
    obtain ⟨hk, hrest⟩ := List.forall_mem_cons.1 hstop
    obtain ⟨hk', hrest'⟩ := List.forall_mem_cons.1 hnone
    rw [List.flatMap_cons, ih hrest hrest']
    cases k with
    | piece p =>
      have hpieces : piecesOf (.piece p :: rest) = p :: piecesOf rest := rfl
      rw [hpieces, List.flatMap_cons, Mark.retell]
    | stop => cases hk
    | element => cases hk'

namespace Session.Rendered

variable {s s' : Session} (D : s.Rendered s')

/-- What a search sees in a line of a rendered document is what could not be read in it. -/
theorem failures_line (h : s.document.WellFormed) (hplain : s.document.IsPlain)
    (hs : Source.AreUsual s.sources) (hreads : s.sources.any Source.readsStrings = true)
    {block : Block} (hblock : Text.isBlankText block.string = false → block ∈ D.blocks) :
    (lines Sign.isStop [] (block.flatMap (tellOf D.blocks D.cuts Symbol.broken))).flatMap
        (fun line => (Delimiters.findFrom {} 0 0 (textOf line)).map Sighting.content) =
      failuresIn block.chars := by
  cases hblank : Text.isBlankText block.string with
  | true =>
    rw [isBlankText_string] at hblank
    rw [failuresIn_eq_nil hblank]
    -- a block that is left out need not be laid out, but nothing is seen in blanks
    refine List.flatMap_eq_nil_iff.2 fun line hline => ?_
    rw [Delimiters.findFrom_eq_nil, List.map_nil]
    refine List.all_eq_true.2 fun c hc => List.all_eq_true.1 hblank c ?_
    have hmem := (mem_of_mem_lines hline (mem_textOf hc)).resolve_left List.not_mem_nil
    obtain ⟨p, hp, hc⟩ := List.mem_flatMap.1 hmem
    exact List.mem_flatMap.2 ⟨p, hp, char_mem_tellOf hc⟩
  | false =>
    have layout := D.layout h hplain
    obtain ⟨j, hget⟩ := List.mem_iff_getElem?.1 (hblock hblank)
    have hstretches := areStretches_filter (fun x hx => D.exists_isSource hs hx)
      (D.pairwise_cuts h hs) hget
    rw [← Nat.zero_add block.chars.length] at hstretches
    have hparts := Delimiters.parts_findFrom (fun x => x.error?.isNone) j 0 block.chars
    rw [← D.cuts_filter h hs hget hreads] at hparts
    rw [layout.flatMap_tellOf hget, ← shownText_filter]
    refine (lines_broken (g := fun s => (Delimiters.findFrom {} 0 0 s).map Sighting.content) ?_
      hstretches).trans (hparts.trans ?_)
    · rw [Delimiters.findFrom]
      rfl
    · rw [← map_content_failures j 0]
      simp only [Option.not_isNone]

/-! ### What is found -/

section

variable (h : s.document.WellFormed) (hs : Source.AreUsual s.sources)

include h hs

theorem below_of_replaces {id : NodeId} (hreplaced : s'.replaces id = true) :
    id ∈ (subtreesAll D.container.children).map label := by
  obtain ⟨n, hn, rfl, -⟩ := D.exists_of_swap_ne h hs ((D.replaces_iff h hs).1 hreplaced)
  exact D.below_of_mem_mathAmong hn

/-- The blocks that are left are those that are in no element that was replaced. -/
theorem filled_hidden :
    filled (blocksOf [] (marksAmong D.hidden ⟨true, false, false⟩ D.container.children)) =
      kept (s.document.isBelow s'.replaces) D.blocks := by
  rw [D.blocks_eq, find_eq_blocksOf D.container false]
  refine filled_blocksOf_hide rfl (fun c hc => ?_) fun n hn hpiece c hc => ?_
  · exact h.isBelow_eq_false D.mem_nodes (fun id hid => D.below_of_replaces h hs hid) hc
  · have hn' : n ∈ s.document.nodes := mem_subtreesAll_of_below hn D.mem_nodes
    have henclosed : s.document.isEnclosed D.blocks D.read n.label = false := by
      refine Revived.isEnclosed_eq_false fun hmem => ?_
      obtain ⟨p, hp, hnode⟩ := List.mem_map.1 hmem
      rw [piece?_of_mem_find h D.mem_nodes (D.blocks_eq ▸ hp) hn' hnode] at hpiece
      cases hpiece
    rw [h.isBelow_child hn' hc, hidden, henclosed, Bool.or_false]

/-- What is seen in the strings of the rendered document could not be read. -/
theorem map_content_rendered (hplain : s.document.IsPlain)
    (hreads : s.sources.any Source.readsStrings = true) {container : Node}
    (hc : s'.document.find? D.container.label = some container) :
    (Delimiters.find {} ((({} : Extraction).find container).map Block.string)).map
        Sighting.content =
      (kept (s.document.isBelow s'.replaces) D.blocks).flatMap fun block =>
        failuresIn block.chars := by
  rw [← D.filled_hidden h hs]
  -- elements are not sought in strings, so every mark of a line is a piece
  generalize hmarks : marksAmong D.hidden ⟨true, false, false⟩ D.container.children = marks
  have hblocks : blocksOf [] marks = (lines Mark.isStop [] marks).map piecesOf :=
    blocksOf_eq [] marks
  have hall := flatMap_lines_retell
    (fun line => (Delimiters.findFrom {} 0 0 (textOf line)).map Sighting.content)
    (tellOf D.blocks D.cuts Symbol.broken) [] marks
  rw [List.nil_append] at hall
  rw [find_eq_blocksOf container false, map_string_filled, map_content_stringsIn,
    D.signs_rendered h hs hplain hc false, hmarks, hall, filled, flatMap_filter, hblocks,
    List.flatMap_map]
  refine List.flatMap_congr fun line hline => ?_
  have htold := flatMap_retell (tellOf D.blocks D.cuts Symbol.broken)
    (isStop_of_mem_lines (by simp) hline) fun k hk =>
      element?_eq_none_of_mem (hmarks ▸ (mem_of_mem_lines hline hk).resolve_left List.not_mem_nil)
  have hin : Text.isBlankText (piecesOf line).string = false → piecesOf line ∈ D.blocks := by
    intro hfilled
    have hmem : piecesOf line ∈ filled (blocksOf [] marks) :=
      List.mem_filter.2 ⟨hblocks ▸ List.mem_map_of_mem hline, by simp [hfilled]⟩
    rw [← hmarks, D.filled_hidden h hs] at hmem
    exact (List.mem_filter.1 hmem).1
  rw [htold, D.failures_line h hplain hs hreads hin]
  cases hblank : Text.isBlankText (piecesOf line).string with
  | true => exact failuresIn_eq_nil (isBlankText_string _ ▸ hblank)
  | false => rfl

end

end Session.Rendered

end Formulary
