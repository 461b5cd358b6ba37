import Formulary.Proofs.Restoration.RestoredLines

/-! # What is read where sources came back

When the sources of a rendered session come back, every list of children reads as before, with the
text of what was strictly inside a source in place of it
(`Session.Rendered.Revived.stream_eq`). -/

namespace Formulary

open Formulary.Tree Document Insertion

/-! ### Lists in segments -/

section

variable {α β : Type} {segments : List (List α)} {first rest : List α}

/-- A segment with an element in the list is a run of it. -/
def AreRuns (segments : List (List α)) (l : List α) : Prop :=
  ∀ a ∈ segments, ∀ x ∈ a, x ∈ l → a <:+: l

theorem isInfix_of_append {a : List α} (h : a <:+: first ++ rest) (hfirst : ∀ x ∈ a, x ∉ first) :
    a <:+: rest := by
  induction first with
  | nil => exact h
  | cons x first ih =>
    rcases List.infix_cons_iff.1 h with hfront | hbehind
    · cases a with
      | nil => exact List.nil_infix
      | cons y a =>
        obtain ⟨rfl, -⟩ := List.cons_prefix_cons.1 hfront
        exact absurd (List.mem_cons_self ..) (hfirst y (List.mem_cons_self ..))
    · exact ih hbehind fun y hy hmem => hfirst y hy (List.mem_cons_of_mem _ hmem)

/-- The segment of the first element is what the list begins with. -/
theorem AreRuns.isPrefix {x : α} (h : AreRuns segments (x :: rest)) (hx : x ∉ rest) {a : List α}
    (ha : a ∈ segments) (hxa : x ∈ a) : a <+: x :: rest := by
  rcases List.infix_cons_iff.1 (h a ha x hxa (List.mem_cons_self ..)) with hfront | hbehind
  · exact hfront
  · exact absurd (hbehind.subset hxa) hx

/-- The segments are runs of what is left behind a part that has nothing of theirs. -/
theorem AreRuns.of_append (h : AreRuns segments (first ++ rest))
    (hfirst : ∀ a ∈ segments, ∀ x ∈ a, x ∈ rest → ∀ y ∈ a, y ∉ first) : AreRuns segments rest :=
  fun a ha x hxa hx => isInfix_of_append (h a ha x hxa (List.mem_append_right _ hx))
    (hfirst a ha x hxa hx)

/-- A list with some segments, of which no two have an element in common, is told as its segments
are. -/
theorem flatMap_eq_of_runs {f g : α → List β}
    (hdisjoint : ∀ a ∈ segments, ∀ b ∈ segments, ∀ x, x ∈ a → x ∈ b → a = b)
    (htold : ∀ a ∈ segments, a.flatMap f = a.flatMap g) {l : List α} (hnodup : l.Nodup)
    (hruns : AreRuns segments l) (hother : ∀ x ∈ l, x ∉ segments.flatten → f x = g x) :
    l.flatMap f = l.flatMap g := by
  induction hn : l.length using Nat.strong_induction_on generalizing l with
  | _ n ih =>
    cases l with
    | nil => rfl
    | cons x rest =>
      obtain ⟨hx, hrest⟩ := List.nodup_cons.1 hnodup
      by_cases hmem : x ∈ segments.flatten
      · -- the list begins with the segment of `x`
        obtain ⟨a, ha, hxa⟩ := List.mem_flatten.1 hmem
        obtain ⟨after, heq⟩ := hruns.isPrefix hx ha hxa
        have hlength : after.length < n := by
          rw [← hn, ← heq, List.length_append]
          exact Nat.lt_add_of_pos_left (List.length_pos_of_mem hxa)
        rw [← heq] at hnodup hother hruns ⊢
        obtain ⟨-, hafter, hdiff⟩ := List.nodup_append.1 hnodup
        have hleft : AreRuns segments after := hruns.of_append fun b hb y hyb hy z hzb hza =>
          hdiff y (hdisjoint a ha b hb z hza hzb ▸ hyb) y hy rfl
        rw [List.flatMap_append, List.flatMap_append, htold a ha,
          ih _ hlength hafter hleft (fun y hy => hother y (List.mem_append_right _ hy)) rfl]
      · have hlength : rest.length < n := hn ▸ Nat.lt_succ_self _
        have hleft : AreRuns segments rest := by
          refine @AreRuns.of_append _ _ [x] rest hruns fun a ha y _ _ z hza hz => hmem ?_
          exact List.mem_flatten.2 ⟨a, ha, List.mem_singleton.1 hz ▸ hza⟩
        rw [List.flatMap_cons, List.flatMap_cons, hother x (List.mem_cons_self ..) hmem,
          ih _ hlength hrest hleft (fun y hy => hother y (List.mem_cons_of_mem _ hy)) rfl]

end

/-! ### Streams -/

/-- A child as symbols once sources are back: what was strictly inside one is the text that it
stands for. -/
def Document.symbolsBack (doc : Document) (blocks : List Block) (read : List Sighting)
    (id : NodeId) : List Symbol :=
  match (occurrences blocks).find? fun u => u.piece.node = id with
  | some u =>
    if doc.isEnclosed blocks read id then u.piece.text.toList.map .char else doc.symbols id
  | none => doc.symbols id

namespace Session.Rendered

variable {s s' r : Session} {D : s.Rendered s'} {pairs : List Replacement}

/-- A piece as part of the text of a block. -/
def atom (D : s.Rendered s') (p : Piece) : Atom Symbol :=
  if Revived.hides D p.node then .text p.text.toList
  else .other p.text.toList.length [.place p.node]

theorem plain_atom (h : s.document.WellFormed) (hplain : s.document.IsPlain) {u : Occurrence}
    (hu : u ∈ occurrences D.blocks) :
    (D.atom u.piece).plain .char = s.document.symbolsBack D.blocks D.read u.piece.node := by
  have layout := D.layout h hplain
  rw [symbolsBack, layout.find?_occurrence hu rfl, atom, Revived.hides]
  cases htext : s.document.text? u.piece.node with
  | some t =>
    obtain rfl := layout.text_eq hu htext
    simp [isEnclosed, htext, Atom.plain, symbols_of_text? htext]
  | none =>
    cases s.document.isEnclosed D.blocks D.read u.piece.node <;>
      simp [Atom.plain, symbols_of_text?_eq_none htext]

namespace Revived

variable (V : D.Revived r pairs)

include V

theorem symbols_shown (h : s.document.WellFormed) (hplain : s.document.IsPlain)
    (hs : Source.AreUsual s.sources) {u : Occurrence} (hu : u ∈ occurrences D.blocks) :
    ((D.shown u.piece.node).map (current pairs)).flatMap r.document.symbols =
      if hides D u.piece.node then
        ((shownText D.cuts u.string u.offset u.piece.text.toList).flatMap
          (Symbol.spelled (spell r pairs))).map .char
      else [.place u.piece.node] := by
  have layout := D.layout h hplain
  rw [hides]
  cases htext : s.document.text? u.piece.node with
  | some t =>
    obtain rfl := layout.text_eq hu htext
    rw [if_pos (by simp), ← D.text hu htext, List.flatMap_map, List.flatMap_assoc, List.map_flatMap]
    refine List.flatMap_congr fun v hv => ?_
    obtain ⟨t, ht, hspelled⟩ := V.exists_text? hs hu htext hv
    rw [symbols_of_text? ht, hspelled]
  | none =>
    obtain ⟨p, hp⟩ := layout.exists_parent hu
    have hid := (mem_ids_of_mem_kids hp).1
    have htold := @layout.shownText_mute _ _ D.cuts (fun x hx => D.exists_isSource hs hx) u hu htext
    rw [D.mute h hplain hu htext, htold, ← isEnclosed_iff h hplain hs hu htext]
    cases s.document.isEnclosed D.blocks D.read u.piece.node with
    | true => rfl
    | false =>
      have hback : r.document.text? u.piece.node = none := by
        rw [text?, V.shell hid, ← text?, htext]
      simp [V.current_of_mem_ids hid, symbols_of_text?_eq_none hback]

theorem flatMap_pieces (h : s.document.WellFormed) (hplain : s.document.IsPlain)
    (hs : Source.AreUsual s.sources) {j : Nat} {before after : Block}
    (hget : D.blocks[j]? = some (before ++ after)) :
    after.flatMap (fun p => ((D.shown p.node).map (current pairs)).flatMap r.document.symbols) =
        told .char (spell r pairs) (D.cuts.filter fun x => x.string = j) j before.chars.length
          (after.map D.atom) ∧
      Fits (D.cuts.filter fun x => x.string = j) (before ++ after).chars before.chars.length
        (after.map D.atom) := by
  have layout := D.layout h hplain
  have hsource : ∀ x ∈ D.cuts, ∃ block, IsSource D.blocks block x := fun x hx =>
    D.exists_isSource hs hx
  induction after generalizing before with
  | nil =>
    refine ⟨rfl, fun x hx => ?_⟩
    have hwithin :=
      ((areStretches_filter hsource (D.pairwise_cuts h hs) hget).within x hx).2
    rw [List.append_nil] at hwithin
    omega
  | cons p rest ih =>
    have hsplit : before ++ p :: rest = before ++ [p] ++ rest := by simp
    obtain ⟨htold, hfits⟩ := ih (hsplit ▸ hget)
    have hlength : (Block.chars (before ++ [p])).length =
        before.chars.length + p.text.toList.length := by simp
    rw [hlength] at htold hfits
    rw [← hsplit] at hfits
    have hu : ⟨j, before.chars.length, p⟩ ∈ occurrences D.blocks :=
      mem_occurrences.2 ⟨_, _, _, hget, rfl, rfl⟩
    rw [List.flatMap_cons, htold, V.symbols_shown h hplain hs hu, List.map_cons, atom]
    cases hhide : hides D p.node with
    | true =>
      refine ⟨by rw [if_pos rfl, if_pos rfl, told, shownText_filter], ?_⟩
      rw [if_pos rfl]
      refine ⟨?_, hfits⟩
      rw [Block.chars_append, Block.chars_cons, List.drop_left, List.take_left]
    | false =>
      -- nothing begins or ends inside the piece
      refine ⟨rfl, ?_⟩
      rw [hides, Bool.or_eq_false_iff, Option.isSome_eq_false_iff, Option.isNone_iff_eq_none] at hhide
      have hfree := hhide.2
      rw [isEnclosed_iff h hplain hs hu hhide.1] at hfree
      obtain ⟨hbegin, hend⟩ := layout.isBoundary hsource hu hhide.1 hfree
      exact ⟨hbegin, hend, hfits⟩

theorem flatMap_block (h : s.document.WellFormed) (hplain : s.document.IsPlain)
    (hs : Source.AreUsual s.sources) {j : Nat} {block : Block} (hget : D.blocks[j]? = some block) :
    (block.map Piece.node).flatMap
        (fun id => ((D.shown id).map (current pairs)).flatMap r.document.symbols) =
      (block.map Piece.node).flatMap (s.document.symbolsBack D.blocks D.read) := by
  have hstretches := areStretches_filter (fun x hx => D.exists_isSource hs hx)
    (D.pairwise_cuts h hs) hget
  obtain ⟨htold, hfits⟩ := @flatMap_pieces _ _ _ _ _ V h hplain hs j [] block hget
  have hstart : IsBoundary (D.cuts.filter fun x => x.string = j) 0 := fun x _ hbetween =>
    absurd hbetween.1 (Nat.not_lt_zero _)
  rw [List.flatMap_map, htold, List.flatMap_map]
  refine (told_eq_plain hstretches (V.areSpelled hs hget) hstart hfits).trans ?_
  rw [List.flatMap_map]
  refine List.flatMap_congr fun p hp => ?_
  obtain ⟨before, after, heq⟩ := List.append_of_mem hp
  exact plain_atom h hplain (mem_occurrences.2 ⟨block, before, after, hget, heq, rfl⟩ :
    (⟨j, Block.chars before |>.length, p⟩ : Occurrence) ∈ _)

/-- Every list of children reads as before, with the text of what was strictly inside a source in
place of it. -/
theorem stream_eq (h : s.document.WellFormed) (hplain : s.document.IsPlain)
    (hs : Source.AreUsual s.sources) {p : NodeId} (hp : p ∈ s.document.ids) :
    r.document.stream p =
      (s.document.kids p).flatMap (s.document.symbolsBack D.blocks D.read) := by
  have layout := D.layout h hplain
  rw [stream, V.kids hp, List.flatMap_assoc]
  refine @flatMap_eq_of_runs _ _ (D.blocks.map fun b => b.map Piece.node) _ _ ?_ ?_ _
    (h.nodup_kids p) ?_ ?_
  · intro a ha b hb x hxa hxb
    obtain ⟨a', ha', rfl⟩ := List.mem_map.1 ha
    obtain ⟨b', hb', rfl⟩ := List.mem_map.1 hb
    obtain ⟨u, hu, rfl⟩ := List.mem_map.1 hxa
    obtain ⟨v, hv, hnode⟩ := List.mem_map.1 hxb
    rw [block_unique layout.distinct ha' hb' hu hv hnode.symm]
  · intro a ha
    obtain ⟨block, hblock, rfl⟩ := List.mem_map.1 ha
    obtain ⟨j, hj⟩ := List.mem_iff_getElem?.1 hblock
    exact V.flatMap_block h hplain hs hj
  · intro a ha x hxa hx
    obtain ⟨block, hblock, rfl⟩ := List.mem_map.1 ha
    obtain ⟨q, before, after, hkids⟩ := layout.host block hblock
    have hxq : x ∈ s.document.kids q := by simp [hkids, hxa]
    obtain rfl := h.parent_unique hxq hx
    exact ⟨before, after, hkids.symm⟩
  · intro x hx hnot
    rw [← List.map_flatten] at hnot
    have hid := (mem_ids_of_mem_kids hx).1
    have hnone : (occurrences D.blocks).find? (fun u => u.piece.node = x) = none :=
      List.find?_eq_none.2 fun u hu heq => hnot (of_decide_eq_true heq ▸
        occurrences_map_node D.blocks ▸ List.mem_map_of_mem hu)
    rw [V.shown_eq h hs hid hnot, List.flatMap_singleton, symbolsBack, hnone, symbols, symbols, text?,
      text?, V.shell hid]

end Revived

end Session.Rendered

end Formulary
