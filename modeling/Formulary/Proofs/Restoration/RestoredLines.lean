import Formulary.Proofs.Restoration.ReplacedText

/-! # What comes back

When the sources of a rendered session come back, every stretch is spelled by the text that stands
for it, so a line reads as before (`Session.Revived.retell_line`). -/

namespace Formulary

open Formulary.Tree Document Insertion

/-! ### Stretches of one block -/

section

variable {doc : Document} {blocks : List Block} {block : Block} {xs : List Insertion} {j : Nat}

theorem areStretches_filter (hsource : ∀ x ∈ xs, ∃ block, IsSource blocks block x)
    (horder : xs.Pairwise fun x y => y.string = x.string → x.stop ≤ y.start)
    (hget : blocks[j]? = some block) :
    AreStretches j 0 block.chars.length (xs.filter fun x => x.string = j) where
  string := fun x hx => of_decide_eq_true (List.mem_filter.1 hx).2
  nonempty := fun x hx => by
    obtain ⟨b, hb⟩ := hsource x (List.mem_filter.1 hx).1
    exact hb.lt
  within := fun x hx => by
    obtain ⟨b, hb⟩ := hsource x (List.mem_filter.1 hx).1
    have hsame := hb.get
    rw [show x.string = j from of_decide_eq_true (List.mem_filter.1 hx).2, hget,
      Option.some.injEq] at hsame
    exact ⟨Nat.zero_le _, hsame ▸ hb.le⟩
  ordered := by
    refine (horder.filter _).imp_of_mem fun {x y} hx hy hle => hle ?_
    rw [show x.string = j from of_decide_eq_true (List.mem_filter.1 hx).2,
      show y.string = j from of_decide_eq_true (List.mem_filter.1 hy).2]

/-- No stretch goes on at the ends of a place that is not running text, if none encloses it. -/
theorem Layout.isBoundary (layout : Layout doc blocks)
    (hsource : ∀ x ∈ xs, ∃ block, IsSource blocks block x) {u : Occurrence}
    (hu : u ∈ occurrences blocks) (hmute : doc.text? u.piece.node = none)
    (hfree : xs.any (fun x => x.surrounds u.string u.offset) = false) :
    IsBoundary (xs.filter fun x => x.string = u.string) u.offset ∧
      IsBoundary (xs.filter fun x => x.string = u.string)
        (u.offset + u.piece.text.toList.length) := by
  have hoff : ∀ x ∈ xs, x.string = u.string → ¬(x.start < u.offset ∧ u.offset < x.stop) := by
    intro x hx hstring hbetween
    refine absurd ?_ (List.any_eq_false.1 hfree x hx)
    simpa [surrounds, hstring] using hbetween
  refine ⟨fun x hx => ?_, fun x hx => ?_⟩
  · obtain ⟨hx, hstring⟩ := List.mem_filter.1 hx
    exact hoff x hx (of_decide_eq_true hstring)
  · obtain ⟨hx, hstring⟩ := List.mem_filter.1 hx
    replace hstring : x.string = u.string := of_decide_eq_true hstring
    rcases layout.chars_of_mute hu hmute with hnil | hbreak
    · rw [hnil]
      exact hoff x hx hstring
    · intro hbetween
      rw [hbreak] at hbetween
      -- the stretch would begin with the line break
      have hstart : x.start = u.offset := by
        have := hoff x hx hstring
        simp only [List.length_singleton] at hbetween
        omega
      obtain ⟨b, hb⟩ := hsource x hx
      exact hb.start_ne hu hstring.symm hbreak hstart

end

/-- A mark as part of a line. -/
def Mark.atom : Mark → Atom Sign
  | .piece p => .text p.text.toList
  | .stop => .other 0 [.stop]
  | .element m display => .other 0 [.element m display]

/-! ### Blocks and blanks -/

theorem block_unique {blocks : List Block} (h : (blocks.flatten.map Piece.node).Nodup)
    {a b : Block} (ha : a ∈ blocks) (hb : b ∈ blocks) {p q : Piece} (hp : p ∈ a) (hq : q ∈ b)
    (heq : p.node = q.node) : a = b := by
  rw [List.map_flatten, List.nodup_flatten, List.pairwise_map] at h
  by_contra hne
  have : Std.Symm (fun a b : Block => (a.map Piece.node).Disjoint (b.map Piece.node)) :=
    ⟨fun _ _ hd v hv hv' => hd hv' hv⟩
  exact h.2.forall ha hb hne (List.mem_map_of_mem hp) (heq ▸ List.mem_map_of_mem hq)

theorem nodes_sublist_placesOf (marks : List Mark) :
    ((piecesOf marks).map Piece.node).Sublist (placesOf marks) := by
  induction marks with
  | nil => exact .slnil
  | cons k rest ih =>
    cases k with
    | piece p => exact ih.cons_cons _
    | stop => exact ih
    | element m display => exact ih.cons _

theorem nodup_blocksOf {container : Node} (h : container.labels.Nodup) (w : Watch) :
    ((blocksOf [] (marksAmong hideNone w container.children)).flatten.map Piece.node).Nodup := by
  have hall := filterMap_lines (f := Mark.piece?) rfl []
    (marksAmong hideNone w container.children)
  have hblocks := blocksOf_eq [] (marksAmong hideNone w container.children)
  have hflat : (blocksOf [] (marksAmong hideNone w container.children)).flatten =
      piecesOf (marksAmong hideNone w container.children) := by
    rw [show ([] : Block) = piecesOf [] from rfl, hblocks, ← List.flatMap_def]
    exact hall
  rw [hflat]
  exact (h.sublist (labels_below_sublist container)).sublist
    ((nodes_sublist_placesOf _).trans (placesOf_marksAmong_sublist _))

/-! ### Sources that are back -/

theorem current_of_mem {pairs : List Replacement} (hfst : (pairs.map Prod.fst).Nodup)
    (hsnd : ∀ x ∈ pairs.map Prod.snd, x ∉ pairs.map Prod.fst) {pair : Replacement}
    (h : pair ∈ pairs) : Session.current pairs pair.1 = pair.2 := by
  induction pairs with
  | nil => cases h
  | cons first rest ih =>
    rw [List.map_cons, List.nodup_cons] at hfst
    rw [current_cons]
    rcases List.mem_cons.1 h with rfl | h
    · rw [Item.current_singleton_self, current_of_not_mem fun hmem => hsnd pair.2 (by simp)
        (List.mem_cons_of_mem _ hmem)]
    · have hne : pair.1 ≠ first.1 := fun heq => hfst.1 (heq ▸ List.mem_map_of_mem h)
      rw [Item.current_singleton_of_ne hne]
      exact ih hfst.2 (fun x hx hmem => hsnd x (List.mem_cons_of_mem _ hx)
        (List.mem_cons_of_mem _ hmem)) h

namespace Session.Rendered

variable {s s' r : Session} {D : s.Rendered s'} {pairs : List Replacement}

/-- The session `r` is a rendered one with its sources back in the document. -/
structure Revived (D : s.Rendered s') (r : Session) (pairs : List Replacement) : Prop where
  settled : s'.IsSettled D.furnished.position (D.added.map label)
  restored : s'.Restored r D.furnished.position pairs
  roots : pairs.map Prod.fst = D.added.map label

namespace Revived

variable (V : D.Revived r pairs)

include V

theorem kids {p : NodeId} (hp : p ∈ s.document.ids) :
    r.document.kids p =
      (s.document.kids p).flatMap fun u => (D.shown u).map (current pairs) := by
  have hin := D.rendering.ids p (D.furnishes.mem_ids hp)
  rw [V.restored.swapped.kids p hin, D.kids hp, List.map_flatMap]

theorem shell {id : NodeId} (hid : id ∈ s.document.ids) :
    r.document.shell? id = s.document.shell? id := by
  rw [V.restored.swapped.shell id (D.rendering.ids id (D.furnishes.mem_ids hid)), D.shell hid]

theorem unseated {item : Item} (hitem : item ∈ s'.items) {root : NodeId}
    (hroot : item.content = some root) :
    Item.Unseated r.document D.furnished.position item root (current pairs root) := by
  have hboth := V.restored.seated_and_unseated V.settled V.roots
  obtain ⟨pair, hpair, hseated, hunseated⟩ := exists_right hboth hitem
  obtain rfl : pair.1 = root := Option.some.inj (hseated.content.symm.trans hroot)
  rwa [current_of_mem (V.roots ▸ V.settled.distinct)
    (V.roots ▸ V.restored.not_mem_roots V.settled) hpair]

theorem current_of_mem_ids {id : NodeId} (hid : id ∈ s.document.ids) :
    current pairs id = id :=
  current_of_not_mem fun hmem => by
    rw [V.roots] at hmem
    obtain ⟨t, ht, rfl⟩ := List.mem_map.1 hmem
    exact D.furnishes.not_mem_ids ht hid

theorem current_of_text? {v : NodeId} {t : String} (htext : s'.document.text? v = some t) :
    current pairs v = v :=
  current_of_not_mem fun hmem => by
    rw [V.roots] at hmem
    obtain ⟨root, hroot, rfl⟩ := List.mem_map.1 hmem
    have hin : root.label ∈ D.furnished.ids := List.mem_map_of_mem (D.furnishes.mem_nodes hroot)
    rw [D.rendering.text? hin, D.furnishes.text?_eq_none hroot] at htext
    cases htext

theorem spells (hs : Source.AreUsual s.sources) {x : Insertion} (hx : x ∈ D.cuts) :
    ∃ X t, X ∈ Delimiters.find {} (D.blocks.map Block.string) ∧ x = X.insertion t ∧
      r.document.text? (current pairs x.root) = some (X.opener ++ X.math ++ X.closer) := by
  obtain ⟨X, t, -, -, rfl, hX, hitem⟩ := D.exists_of_mem_cuts hs hx
  refine ⟨X, t.label, hX, rfl, (V.unseated hitem rfl).source.trans ?_⟩
  simp [Item.spelling?, Find.inserted, Find.typeset, Find.compiled, Find.item, Item.inserted]

theorem current_swap (h : s.document.WellFormed) (hs : Source.AreUsual s.sources) {m : NodeId}
    (hm : m ∈ s.document.ids) : current pairs (D.swap m) = m := by
  by_cases hswap : ∃ root, .element m root ∈ targetsOf D.finds D.added
  · obtain ⟨root, hmem⟩ := hswap
    obtain ⟨f, -, t, -, -, heq, hitem⟩ := D.exists_of_mem_targets hmem
    cases f with
    | sighting x => cases heq
    | element m' display =>
      obtain ⟨rfl, rfl⟩ := Target.element.inj heq
      rw [swap, Target.swap_of_mem (D.pairwise_targets h hs) hmem]
      exact (V.unseated hitem rfl).source
  · rw [swap, Target.swap_of_not_mem fun root hmem => hswap ⟨root, hmem⟩,
      V.current_of_mem_ids hm]

theorem shown_eq (h : s.document.WellFormed) (hs : Source.AreUsual s.sources) {id : NodeId}
    (hid : id ∈ s.document.ids) (hnot : id ∉ D.blocks.flatten.map Piece.node) :
    (D.shown id).map (current pairs) = [id] := by
  rw [D.other hid hnot, List.map_singleton, V.current_swap h hs hid]

omit V in
/-- The text that stands for a typeset form once its source is back. -/
def spell (r : Session) (pairs : List Replacement) (id : NodeId) : List Char :=
  ((r.document.text? (current pairs id)).map String.toList).getD []

omit V in
/-- A symbol in signs, where a place spells its source. -/
def say (r : Session) (pairs : List Replacement) (symbol : Symbol) : List Sign :=
  (symbol.spelled (spell r pairs)).map .char

omit V in
/-- A place in which nothing is found once the sources are back: a text, which has nothing in it,
and what was strictly inside a source. -/
def hides (D : s.Rendered s') (id : NodeId) : Bool :=
  (s.document.text? id).isSome || s.document.isEnclosed D.blocks D.read id

theorem areSpelled (hs : Source.AreUsual s.sources) {j : Nat} {block : Block}
    (hget : D.blocks[j]? = some block) :
    AreSpelled (spell r pairs) block.chars (D.cuts.filter fun x => x.string = j) := by
  intro x hx
  obtain ⟨hx, hstring⟩ := List.mem_filter.1 hx
  replace hstring : x.string = j := of_decide_eq_true hstring
  obtain ⟨X, t, hX, rfl, htext⟩ := V.spells hs hx
  obtain ⟨i, string, hi, -, hX, before, after, heq, hstart, hstop⟩ := Delimiters.find_spec hX
  have hj : i = j := by
    have : X.string.toNat = j := hstring
    omega
  rw [hj, List.getElem?_map, hget, Option.map_some, Option.some.injEq] at hi
  rw [spell, htext, Option.map_some, Option.getD_some, ← Block.string_toList, hi, heq]
  have hbegin : (X.insertion t).start = before.length := by
    show X.start.toNat = before.length
    omega
  have hlength : (X.insertion t).stop - (X.insertion t).start = X.spelling.length := by
    show X.stop.toNat - X.start.toNat = X.spelling.length
    omega
  rw [hlength, hbegin, List.append_assoc, List.drop_left, List.take_left]
  simp [Sighting.spelling]

theorem exists_text? (hs : Source.AreUsual s.sources) {u : Occurrence}
    (hu : u ∈ occurrences D.blocks)
    (htext : s.document.text? u.piece.node = some u.piece.text) {v : NodeId}
    (hv : v ∈ D.shown u.piece.node) :
    ∃ t, r.document.text? (current pairs v) = some t ∧
      t.toList = (s'.document.symbols v).flatMap (Symbol.spelled (spell r pairs)) := by
  have htext₁ : D.furnished.text? u.piece.node = some u.piece.text := by
    rwa [D.furnishes.text? (mem_ids_of_text? htext)]
  rcases D.rendering.mem_shown_cases hu htext₁ hv with ⟨t, ht⟩ | ⟨hnone, x, hx, rfl⟩
  · refine ⟨t, ?_, ?_⟩
    · have hshell := V.restored.swapped.shell v (mem_ids_of_text? ht)
      rw [V.current_of_text? ht]
      rw [text?_eq_some] at ht ⊢
      rw [hshell, ht]
    · rw [symbols_of_text? ht, flatMap_spelled_map_char]
  · obtain ⟨X, t, -, -, hsource⟩ := V.spells hs hx
    refine ⟨_, hsource, ?_⟩
    rw [symbols_of_text?_eq_none hnone, List.flatMap_singleton, Symbol.spelled, spell, hsource]
    rfl

theorem signsAt_shown (hs : Source.AreUsual s.sources) {u : Occurrence}
    (hu : u ∈ occurrences D.blocks)
    (htext : s.document.text? u.piece.node = some u.piece.text) {w : Watch} (hr : w.reads = true)
    (hi : w.ignores = false) :
    ((D.shown u.piece.node).map (current pairs)).flatMap (r.document.signsAt w) =
      ((D.shown u.piece.node).flatMap s'.document.symbols).flatMap (say r pairs) := by
  rw [List.flatMap_map, List.flatMap_assoc]
  refine List.flatMap_congr fun v hv => ?_
  obtain ⟨t, ht, hspelled⟩ := V.exists_text? hs hu htext hv
  rw [signsAt_text ht hr hi, hspelled, List.map_flatMap]
  rfl

omit V in
theorem isEnclosed_iff (h : s.document.WellFormed) (hplain : s.document.IsPlain)
    (hs : Source.AreUsual s.sources) {u : Occurrence} (hu : u ∈ occurrences D.blocks)
    (hmute : s.document.text? u.piece.node = none) :
    s.document.isEnclosed D.blocks D.read u.piece.node =
      D.cuts.any fun x => x.surrounds u.string u.offset := by
  have layout := D.layout h hplain
  rw [isEnclosed, hmute, D.any_surrounds h hs]
  refine Bool.eq_iff_iff.2 ⟨fun hany => ?_, fun hany => ?_⟩
  · simp only [Option.isNone_none, Bool.true_and, List.any_eq_true (p := fun _ => _ && _),
      Bool.and_eq_true, decide_eq_true_eq] at hany
    obtain ⟨v, hv, hnode, hx⟩ := hany
    rwa [← occurrence_unique layout.distinct hv hu hnode]
  · simp only [Option.isNone_none, Bool.true_and]
    exact List.any_eq_true.2 ⟨u, hu, by simpa using hany⟩

omit V in
theorem isEnclosed_eq_false {id : NodeId} (hnot : id ∉ D.blocks.flatten.map Piece.node) :
    s.document.isEnclosed D.blocks D.read id = false := by
  rw [isEnclosed, Bool.and_eq_false_iff]
  refine .inr (List.any_eq_false.2 fun u hu hboth => hnot ?_)
  simp only [Bool.and_eq_true, decide_eq_true_eq] at hboth
  rw [← hboth.1, ← occurrences_map_node]
  exact List.mem_map_of_mem hu

/-- What a search notes once the sources are back. -/
theorem retold (h : s.document.WellFormed) (hplain : s.document.IsPlain)
    (hs : Source.AreUsual s.sources) :
    s.document.Retold r.document (hides D) (D.blocks.flatten.map Piece.node)
      (fun u => (D.shown u).map (current pairs)) (tellOf D.blocks D.cuts (say r pairs)) := by
  refine D.retold h hplain hs (fun c => rfl) (fun p hp => V.kids hp) (fun id hid => V.shell hid)
    (fun u hu htext w hr hi => V.signsAt_shown hs hu htext hr hi) (fun u hu hmute => ?_)
    fun n hn hnot => ?_
  · obtain ⟨p, hp⟩ := (D.layout h hplain).exists_parent hu
    have henclosed := isEnclosed_iff h hplain hs hu hmute
    have hhide : hides D u.piece.node = s.document.isEnclosed D.blocks D.read u.piece.node := by
      simp [hides, hmute]
    rw [hhide, ← henclosed, D.mute h hplain hu hmute, ← henclosed]
    refine ⟨?_, rfl⟩
    split
    · rfl
    · rw [List.map_singleton, V.current_of_mem_ids (mem_ids_of_mem_kids hp).1]
  · have hid : n.label ∈ s.document.ids := List.mem_map_of_mem hn
    rw [V.shown_eq h hs hid hnot]
    cases htext : s.document.text? n.label with
    | none => exact .inl ⟨rfl, by simp [hides, htext, isEnclosed_eq_false hnot]⟩
    | some t =>
      refine .inr fun w tell htell => ?_
      have hstring := h.eq_string hn htext
      have htext' : r.document.text? n.label = some t := by
        rw [text?_eq_some] at htext ⊢
        rw [V.shell hid, htext]
      rw [List.flatMap_singleton, signsAt, find?_of_text? htext', Option.map_some,
        Option.getD_some, hstring, marksIn, marksIn, signs_append, List.flatMap_append,
        w.before_retell (hstring ▸ htell), w.after_retell]
      rfl

end Revived

/-! ### Lines -/

namespace Revived

variable (V : D.Revived r pairs)

include V

omit V in
/-- What is cut out of a block does not go on across an element in its line. -/
theorem isBoundary_element (h : s.document.WellFormed) (hplain : s.document.IsPlain)
    (hs : Source.AreUsual s.sources) {j : Nat} {before after : List Mark} {m : NodeId}
    {display : Bool}
    (hget : D.blocks[j]? = some (piecesOf (before ++ .element m display :: after)))
    (hstop : ∀ k ∈ before ++ .element m display :: after, k.isStop = false)
    (hanchored : IsAnchored (hides D) none (before ++ .element m display :: after)) :
    IsBoundary (D.cuts.filter fun x => x.string = j) (piecesOf before).chars.length := by
  have layout := D.layout h hplain
  have hsource : ∀ x ∈ D.cuts, ∃ block, IsSource D.blocks block x := fun x hx =>
    D.exists_isSource hs hx
  rw [piecesOf_append, piecesOf_element_cons] at hget
  -- a piece that stays stands right in front of the element, or no piece follows it
  rcases hanchored.of_append_element (fun k hk => hstop k (by simp [hk]))
    (fun k hk => hstop k (by simp [hk])) with ⟨p, hp, hhide⟩ | hrest
  · rw [Option.or_none] at hp
    obtain ⟨init, hinit⟩ := List.getLast?_eq_some_iff.1 hp
    have hu : ⟨j, (Block.chars init).length, p⟩ ∈ occurrences D.blocks :=
      mem_occurrences.2 ⟨_, init, piecesOf after, hget, by simp [hinit], rfl⟩
    rw [hides, Bool.or_eq_false_iff, Option.isSome_eq_false_iff, Option.isNone_iff_eq_none] at hhide
    have hfree := hhide.2
    rw [isEnclosed_iff h hplain hs hu hhide.1] at hfree
    have hbounds := (layout.isBoundary hsource hu hhide.1 hfree).2
    rw [hinit, Block.chars_append, List.length_append]
    simpa using hbounds
  · intro x hx
    have hwithin := ((areStretches_filter hsource (D.pairwise_cuts h hs) hget).within x hx).2
    rw [hrest, List.append_nil] at hwithin
    omega

variable (r pairs) in
omit V in
/-- What is told of the rest of the line of a block, which fits what is cut out of the block. -/
theorem retell_rest (h : s.document.WellFormed) (hplain : s.document.IsPlain)
    (hs : Source.AreUsual s.sources) {j : Nat} {line : List Mark}
    (hget : D.blocks[j]? = some (piecesOf line)) (hstop : ∀ k ∈ line, k.isStop = false)
    (hanchored : IsAnchored (hides D) none line) {before after : List Mark}
    (heq : line = before ++ after) :
    after.flatMap (Mark.retell (tellOf D.blocks D.cuts (say r pairs))) =
        told .char (spell r pairs) (D.cuts.filter fun x => x.string = j) j
          (piecesOf before).chars.length (after.map Mark.atom) ∧
      Fits (D.cuts.filter fun x => x.string = j) (piecesOf line).chars
        (piecesOf before).chars.length (after.map Mark.atom) := by
  have layout := D.layout h hplain
  induction after generalizing before with
  | nil =>
    refine ⟨rfl, fun x hx => ?_⟩
    have hwithin := ((areStretches_filter (fun x hx => D.exists_isSource hs hx)
      (D.pairwise_cuts h hs) hget).within x hx).2
    rw [heq, List.append_nil] at hwithin
    omega
  | cons k rest ih =>
    obtain ⟨htold, hfits⟩ := ih (show line = (before ++ [k]) ++ rest by simp [heq])
    cases k with
    | piece p =>
      have hpieces : piecesOf line = piecesOf before ++ p :: piecesOf rest := by simp [heq]
      rw [length_chars_append_piece] at htold hfits
      have hu : ⟨j, (piecesOf before).chars.length, p⟩ ∈ occurrences D.blocks :=
        mem_occurrences.2 ⟨_, _, _, hget, hpieces, rfl⟩
      refine ⟨?_, ?_, hfits⟩
      · rw [List.flatMap_cons, htold, Mark.retell, layout.tellOf_eq hu, List.map_cons, Mark.atom,
          told, shownText_filter, List.map_flatMap]
        rfl
      · rw [hpieces, Block.chars_append, Block.chars_cons, List.drop_left, List.take_left]
    | stop => exact absurd (hstop .stop (by simp [heq])) (by decide)
    | element m display =>
      rw [piecesOf_append, piecesOf_element_cons, piecesOf_nil, List.append_nil] at htold hfits
      have hboundary := isBoundary_element h hplain hs (heq ▸ hget) (heq ▸ hstop) (heq ▸ hanchored)
      refine ⟨?_, hboundary, hboundary, hfits⟩
      rw [List.flatMap_cons, htold, Mark.retell]
      rfl

/-- A line of a block reads as before. -/
theorem retell_line (h : s.document.WellFormed) (hplain : s.document.IsPlain)
    (hs : Source.AreUsual s.sources) {j : Nat} {line : List Mark}
    (hget : D.blocks[j]? = some (piecesOf line)) (hstop : ∀ k ∈ line, k.isStop = false)
    (hanchored : IsAnchored (hides D) none line) :
    line.flatMap (Mark.retell (tellOf D.blocks D.cuts (say r pairs))) = signs line := by
  have hstretches := areStretches_filter (fun x hx => D.exists_isSource hs hx)
    (D.pairwise_cuts h hs) hget
  obtain ⟨htold, hfits⟩ := retell_rest r pairs h hplain hs hget hstop hanchored
    (show line = [] ++ line from rfl)
  have hstart : IsBoundary (D.cuts.filter fun x => x.string = j) 0 := fun x _ hbetween =>
    absurd hbetween.1 (Nat.not_lt_zero _)
  rw [htold]
  refine (told_eq_plain hstretches (V.areSpelled hs hget) hstart hfits).trans ?_
  rw [List.flatMap_map]
  refine List.flatMap_congr fun k _ => ?_
  cases k <;> rfl

omit V in
theorem isSome_piece?_of_hides (h : s.document.WellFormed) {n : Node} (hn : n ∈ s.document.nodes)
    (hhide : hides D n.label = true) : (({} : Extraction).piece? n).isSome = true := by
  rw [hides, Bool.or_eq_true] at hhide
  rcases hhide with htext | henclosed
  · obtain ⟨t, ht⟩ := Option.isSome_iff_exists.1 htext
    rw [h.eq_string hn ht]
    rfl
  · by_cases hmem : n.label ∈ D.blocks.flatten.map Piece.node
    · obtain ⟨p, hp, hnode⟩ := List.mem_map.1 hmem
      rw [piece?_of_mem_find h D.mem_nodes (D.blocks_eq ▸ hp) hn hnode]
      rfl
    · rw [isEnclosed_eq_false hmem] at henclosed
      cases henclosed

omit V in
theorem blocksOf_hides (h : s.document.WellFormed) (w : Watch) :
    blocksOf [] (marksAmong (hides D) w D.container.children) =
      blocksOf [] (marksAmong hideNone w D.container.children) :=
  blocksOf_hide fun _ hn hhide =>
    isSome_piece?_of_hides h (mem_subtreesAll_of_below hn D.mem_nodes) hhide

/-- A search of the document with the sources notes what it noted before, apart from what was
strictly inside a source. -/
theorem signs_eq (h : s.document.WellFormed) (hplain : s.document.IsPlain)
    (hs : Source.AreUsual s.sources) {container : Node}
    (hc : r.document.find? D.container.label = some container) :
    signs (marksAmong hideNone ⟨true, false, true⟩ container.children) =
      signs (marksAmong (hides D) ⟨true, false, true⟩ D.container.children) := by
  obtain ⟨hmem, hlabel⟩ := mem_of_find? hc
  have hwf := V.restored.swapped.wellFormed
  rw [← hwf.flatMap_signsAt hmem, hlabel, (V.retold h hplain hs).signs_eq h hwf hplain D.mem_nodes
    (D.blocks_eq ▸ areNoted_find D.container true)]
  refine @flatMap_eq_of_lines _ (Mark.retell (tellOf D.blocks D.cuts (say r pairs)))
    (Mark.retell Piece.plainly) rfl [] _ fun line hline => ?_
  have hblock : piecesOf line ∈
      blocksOf [] (marksAmong hideNone ⟨true, false, true⟩ D.container.children) := by
    rw [← blocksOf_hides h]
    exact blocksOf_eq [] _ ▸ List.mem_map_of_mem hline
  have hblocks : D.blocks = filled
      (blocksOf [] (marksAmong hideNone ⟨true, false, true⟩ D.container.children)) := by
    rw [D.blocks_eq, find_eq_blocksOf]
  cases hblank : Text.isBlankText (piecesOf line).string with
  | false =>
    have hin : piecesOf line ∈ D.blocks := by
      rw [hblocks]
      exact List.mem_filter.2 ⟨hblock, by simp [hblank]⟩
    obtain ⟨j, hj⟩ := List.mem_iff_getElem?.1 hin
    exact V.retell_line h hplain hs hj (isStop_of_mem_lines (by simp) hline)
      (@IsAnchored.of_mem_lines _ [] _ _ (isAnchored_marksAmong ..) hline)
  | true =>
    refine List.flatMap_congr fun k hk => ?_
    cases k with
    | piece p =>
      refine tellOf_of_not_mem fun hnode => ?_
      obtain ⟨q, hq, heq⟩ := List.mem_map.1 hnode
      obtain ⟨block, hfilled, hq⟩ := List.mem_flatten.1 hq
      rw [hblocks] at hfilled
      obtain ⟨hin, hnot⟩ := List.mem_filter.1 hfilled
      have hsame := block_unique (nodup_blocksOf (D.nodup_labels h) _) hin hblock hq
        (List.mem_filterMap.2 ⟨_, hk, rfl⟩) heq
      rw [hsame, hblank] at hnot
      cases hnot
    | stop => rfl
    | element m display => rfl

end Revived

end Session.Rendered

end Formulary
