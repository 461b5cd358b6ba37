import Formulary.Proofs.Update.Rendering

/-! # One item more

An update that has come to one item more is still described by `Rendering`: `Rendering.insert` is
the step for a source in running text, `Rendering.exchange` that for an element.  The first
follows the pieces of the source: what is left of the first one stands before the typeset form,
what is left of the last one after it, and the others are gone. -/

namespace Formulary

open Formulary.Tree Document

section

variable {doc₀ doc : Document} {blocks : List Block} {block : Block} {rank : NodeId → Nat}
  {xs : List Insertion} {x : Insertion} {swap : NodeId → NodeId} {replaced : List Replacement}
  {shown : NodeId → List NodeId}

/-! ### The pieces around a source -/

theorem IsSource.occurrence_of_mem (hx : IsSource blocks block x) (layout : Layout doc₀ blocks)
    {before core after : Block} (heq : block = before ++ core ++ after) {u : Occurrence}
    (hu : u ∈ occurrences blocks) (hmem : u.piece.node ∈ core.map Piece.node) :
    ∃ us vs, core = us ++ u.piece :: vs ∧ u.string = x.string ∧
      u.offset = (before ++ us).chars.length := by
  obtain ⟨c, hc, hnode⟩ := List.mem_map.1 hmem
  obtain ⟨us, vs, hcore⟩ := List.append_of_mem hc
  have hsplit : block = (before ++ us) ++ c :: (vs ++ after) := by
    rw [heq, hcore]
    simp
  obtain rfl := occurrence_unique layout.distinct (hx.occurs hsplit) hu hnode
  exact ⟨us, vs, hcore, rfl, rfl⟩

theorem IsSource.before_or_after (hx : IsSource blocks block x) {before core after : Block}
    (heq : block = before ++ core ++ after) {u : Occurrence} (hu : u ∈ occurrences blocks)
    (hstring : u.string = x.string) (hmem : u.piece.node ∉ core.map Piece.node) :
    u.offset + u.piece.text.toList.length ≤ before.chars.length ∨
      (before ++ core).chars.length ≤ u.offset := by
  obtain ⟨block', ahead, behind, hget, hsplit, hoffset⟩ := mem_occurrences.1 hu
  rw [hstring, hx.get, Option.some.injEq] at hget
  subst hget
  rw [hoffset]
  have hnot : u.piece ∉ core := fun hm => hmem (List.mem_map_of_mem hm)
  rw [List.append_assoc] at heq
  rcases List.append_eq_append_iff.1 (hsplit.symm.trans heq) with
    ⟨us, rfl, hrest⟩ | ⟨us, rfl, hrest⟩
  · cases us with
    | nil =>
      cases core with
      | nil => exact .inr (by simp)
      | cons c core => exact absurd (by simp [(List.cons.inj hrest).1]) hnot
    | cons c us =>
      left
      rw [(List.cons.inj hrest).1, Block.chars_append, Block.chars_cons, List.length_append,
        List.length_append]
      omega
  · rcases List.append_eq_append_iff.1 hrest with ⟨ws, rfl, -⟩ | ⟨ws, rfl, hbehind⟩
    · right
      simp only [Block.chars_append, List.length_append]
      omega
    · cases ws with
      | nil => exact .inr (by simp)
      | cons c ws => exact absurd (by simp [(List.cons.inj hbehind).1]) hnot

/-- What stands for a place once the source from `z` to `w`, the pieces `core`, has given way to
`root`: of its pieces only what is left of `z` and of `w`. -/
def shownWith (core : Block) (z w : Piece) (root : NodeId) (left right : List NodeId)
    (shown : NodeId → List NodeId) (id : NodeId) : List NodeId :=
  if id ∈ core.map Piece.node then
    (if id = z.node then left ++ [root] else []) ++ (if id = w.node then right else [])
  else shown id

theorem shownWith_of_not_mem {core : Block} {z w : Piece} {root : NodeId} {left right : List NodeId}
    {id : NodeId} (h : id ∉ core.map Piece.node) :
    shownWith core z w root left right shown id = shown id := if_neg h

theorem flatMap_shownWith_of_disjoint {core : Block} {z w : Piece} {root : NodeId}
    {left right ids : List NodeId} (h : ∀ id ∈ ids, id ∉ core.map Piece.node) :
    ids.flatMap (shownWith core z w root left right shown) = ids.flatMap shown := by
  rw [List.flatMap_def, List.flatMap_def,
    List.map_congr_left fun id hid => shownWith_of_not_mem (h id hid)]

theorem flatMap_shownWith {core init : Block} {z w : Piece} {root : NodeId}
    {left right : List NodeId} (hcore : core = init ++ [w]) (hhead : core.head? = some z)
    (hnodup : (core.map Piece.node).Nodup) :
    (core.map Piece.node).flatMap (shownWith core z w root left right shown) =
      left ++ root :: right := by
  have heq : ∀ id ∈ core.map Piece.node, shownWith core z w root left right shown id =
      (if id = z.node then left ++ [root] else []) ++ (if id = w.node then right else []) :=
    fun id hid => if_pos hid
  rw [List.flatMap_def, List.map_congr_left heq, ← List.flatMap_def]
  cases init with
  | nil =>
    obtain rfl : core = [w] := hcore
    obtain rfl : w = z := Option.some.inj hhead
    simp
  | cons c mid =>
    rw [hcore] at hhead hnodup ⊢
    obtain rfl : c = z := Option.some.inj hhead
    rw [List.cons_append, List.map_cons, List.map_append, List.map_singleton, List.nodup_cons,
      List.nodup_append] at hnodup
    obtain ⟨hz, -, -, hw⟩ := hnodup
    have hzw : c.node ≠ w.node := fun h => hz (by simp [h])
    have hmid : (mid.map Piece.node).flatMap (fun id =>
        (if id = c.node then left ++ [root] else []) ++ (if id = w.node then right else [])) = [] := by
      refine List.flatMap_eq_nil_iff.2 fun id hid => ?_
      rw [if_neg fun h => hz (by simp [← h, hid]), if_neg (hw id hid w.node (by simp))]
      rfl
    rw [List.cons_append, List.map_cons, List.map_append, List.flatMap_cons, List.flatMap_append,
      hmid]
    simp [hzw, Ne.symm hzw]

/-- The pieces of a source: the first one holds its start, the last one its end, and no other
reaches that far. -/
theorem Block.Span.core_cases {before skip core after init us vs : Block} {z w c : Piece}
    (span : Block.Span block x.start x.stop before skip core after)
    (hnodup : (core.map Piece.node).Nodup) (hcore : core = init ++ [w])
    (hhead : core.head? = some z) (hsplit : core = us ++ c :: vs) :
    (us = [] ∧ c = z ∧ (before ++ skip ++ us).chars.length ≤ x.start ∧
        x.start < (before ++ skip ++ us).chars.length + c.text.toList.length ∨
      c.node ≠ z.node ∧ x.start < (before ++ skip ++ us).chars.length) ∧
    (us = init ∧ c = w ∧ x.stop ≤ (before ++ skip ++ us).chars.length + c.text.toList.length ∧
        (before ++ skip ++ us).chars.length < x.stop ∨
      c.node ≠ w.node ∧ (before ++ skip ++ us).chars.length + c.text.toList.length < x.stop) := by
  obtain ⟨z', tail, hz', hle, hlt⟩ := span.first
  obtain ⟨init', w', hw', hinit, hreach, -⟩ := span.last
  obtain ⟨rfl, hw⟩ := List.append_inj' (hcore.symm.trans hw') rfl
  obtain rfl : w = w' := (List.cons.inj hw).1
  rw [hz'] at hhead
  obtain rfl : z' = z := Option.some.inj hhead
  constructor
  · cases us with
    | nil =>
      rw [hz'] at hsplit
      obtain rfl : z' = c := (List.cons.inj hsplit).1
      rw [List.append_nil]
      exact .inl ⟨rfl, rfl, hle, hlt⟩
    | cons d us =>
      right
      rw [hz'] at hsplit
      obtain rfl : z' = d := (List.cons.inj hsplit).1
      rw [hz', hsplit, List.cons_append, List.map_cons, List.nodup_cons] at hnodup
      refine ⟨fun h => hnodup.1 (by simp [← h]), ?_⟩
      simp only [Block.chars_append, Block.chars_cons, List.length_append] at hlt ⊢
      omega
  · rcases List.eq_nil_or_concat vs with rfl | ⟨vs, d, rfl⟩
    · left
      obtain ⟨rfl, hc⟩ := List.append_inj' (hsplit.symm.trans hcore) rfl
      obtain rfl : c = w := (List.cons.inj hc).1
      exact ⟨rfl, rfl, hreach, hinit⟩
    · right
      have hcons : us ++ c :: (vs ++ [d]) = (us ++ c :: vs) ++ [d] := by simp
      rw [List.concat_eq_append, hcons] at hsplit
      obtain ⟨rfl, hd⟩ := List.append_inj' (hcore.symm.trans hsplit) rfl
      rw [hcore, List.map_append, List.nodup_append] at hnodup
      refine ⟨fun h => hnodup.2.2 c.node (by simp) w.node (by simp) h, ?_⟩
      simp only [Block.chars_append, Block.chars_cons, List.length_append] at hinit ⊢
      omega

namespace Rendering

theorem symbols_rest (R : Rendering doc₀ blocks rank xs swap doc replaced shown)
    (hx : IsSource blocks block x) (horder : ∀ y ∈ xs, y.string = x.string → x.stop ≤ y.start)
    {before after : Block} {w : Piece} (heq : block = before ++ w :: after)
    (htext : doc₀.text? w.node = some w.text) {n : Nat} {rest : List NodeId}
    (hshown : shown w.node = Session.current replaced w.node :: rest)
    (hcur : doc.text? (Session.current replaced w.node) =
      some (String.ofList (w.text.toList.take n)))
    (hle : before.chars.length ≤ x.stop)
    (hreach : x.stop ≤ before.chars.length + w.text.toList.length)
    (hn : x.stop - before.chars.length ≤ n) :
    ((w.text.toList.take n).drop (x.stop - before.chars.length)).map .char ++
        rest.flatMap doc.symbols =
      Insertion.shownText xs x.string x.stop (w.text.toList.drop (x.stop - before.chars.length)) := by
  have htextw := R.text _ (hx.occurs heq) htext
  simp only at htextw
  rw [hshown, List.flatMap_cons, symbols_of_text? hcur, String.toList_ofList] at htextw
  generalize he : x.stop - before.chars.length = e at hn ⊢
  have hsplit := List.take_append_drop e w.text.toList
  have hlen : (w.text.toList.take e).length = e := by
    rw [List.length_take]
    omega
  have htake : w.text.toList.take n = w.text.toList.take e ++ (w.text.toList.take n).drop e := by
    have := List.take_append_drop e (w.text.toList.take n)
    rw [List.take_take, Nat.min_eq_left hn] at this
    exact this.symm
  rw [← hsplit, Insertion.shownText_append, hlen, hsplit, htake, List.map_append,
    Insertion.shownText_of_not_covers (fun y hy hj => .inl (by
      have := horder y hy hj
      rw [hlen]
      omega)), List.append_assoc] at htextw
  have hstop : before.chars.length + e = x.stop := by omega
  rw [hstop] at htextw
  exact List.append_cancel_left htextw

end Rendering

/-! ### The step -/

theorem Layout.exists_parent (layout : Layout doc₀ blocks) {u : Occurrence}
    (hu : u ∈ occurrences blocks) : ∃ p, u.piece.node ∈ doc₀.kids p := by
  obtain ⟨block, before, after, hget, rfl, -⟩ := mem_occurrences.1 hu
  obtain ⟨p, ahead, behind, hkids⟩ := layout.host _ (List.mem_of_getElem? hget)
  exact ⟨p, by simp [hkids]⟩

theorem Rendering.mem_ids_of_mem_shown
    (R : Rendering doc₀ blocks rank xs swap doc replaced shown) {p u v : NodeId}
    (hu : u ∈ doc₀.kids p) (hv : v ∈ shown u) : v ∈ doc.ids := by
  have hkid : v ∈ doc.kids p :=
    R.kids p (mem_ids_of_mem_kids hu).2 ▸ List.mem_flatMap.2 ⟨u, hu, hv⟩
  exact (mem_ids_of_mem_kids hkid).1

namespace Inserted

variable {doc' : Document} {rs : List Replacement}

/-- The pieces of the source. -/
def core (I : Inserted doc₀ block rank x doc replaced shown doc' rs) : Block := I.init ++ [I.w]

/-- What stands for a place with the source given way to its typeset form. -/
def shownAfter (I : Inserted doc₀ block rank x doc replaced shown doc' rs) : NodeId → List NodeId :=
  shownWith I.core I.z I.w x.root I.left (I.right ++ I.rest) shown

theorem block_eq (I : Inserted doc₀ block rank x doc replaced shown doc' rs) :
    block = (I.before ++ I.skip) ++ I.core ++ I.after := I.span.eq

theorem kids_eq (I : Inserted doc₀ block rank x doc replaced shown doc' rs) :
    doc₀.kids I.host = (I.ahead ++ I.before.map Piece.node) ++ I.skip.map Piece.node ++
      I.core.map Piece.node ++ (I.after.map Piece.node ++ I.behind) := by
  refine I.kids.trans ((congrArg (fun b : Block => I.ahead ++ b.map Piece.node ++ I.behind)
    I.block_eq).trans ?_)
  simp

theorem mem_kids (I : Inserted doc₀ block rank x doc replaced shown doc' rs) {id : NodeId}
    (h : id ∈ I.core.map Piece.node) : id ∈ doc₀.kids I.host := by
  rw [I.kids_eq]
  exact List.mem_append_left _ (List.mem_append_right _ h)

theorem last_mem_core (I : Inserted doc₀ block rank x doc replaced shown doc' rs) :
    I.w.node ∈ I.core.map Piece.node := by simp [core]

theorem first_mem_core (I : Inserted doc₀ block rank x doc replaced shown doc' rs) :
    I.z.node ∈ I.core.map Piece.node := List.mem_map_of_mem (List.mem_of_mem_head? I.head)

theorem host_mem (I : Inserted doc₀ block rank x doc replaced shown doc' rs) :
    I.host ∈ doc₀.ids := (mem_ids_of_mem_kids (I.mem_kids I.last_mem_core)).2

theorem nodup_core (I : Inserted doc₀ block rank x doc replaced shown doc' rs)
    (hdoc₀ : doc₀.WellFormed) : (I.core.map Piece.node).Nodup := by
  have h := I.kids_eq ▸ hdoc₀.nodup_kids I.host
  exact (List.nodup_append.1 (List.nodup_append.1 h).1).2.1

theorem flatMap_of_disjoint (I : Inserted doc₀ block rank x doc replaced shown doc' rs)
    (ids : List NodeId) (h : ∀ id ∈ ids, id ∉ I.core.map Piece.node) :
    ids.flatMap I.shownAfter = ids.flatMap shown := flatMap_shownWith_of_disjoint h

theorem flatMap_core (I : Inserted doc₀ block rank x doc replaced shown doc' rs)
    (hdoc₀ : doc₀.WellFormed) :
    (I.core.map Piece.node).flatMap I.shownAfter = I.left ++ x.root :: (I.right ++ I.rest) :=
  flatMap_shownWith rfl I.head (I.nodup_core hdoc₀)

theorem kids_after (I : Inserted doc₀ block rank x doc replaced shown doc' rs)
    (R : Rendering doc₀ blocks rank xs swap doc replaced shown) (hdoc₀ : doc₀.WellFormed)
    (hx : IsSource blocks block x) (horder : ∀ y ∈ xs, y.string = x.string → x.stop ≤ y.start)
    {p : NodeId} (hp : p ∈ doc₀.ids) : doc'.kids p = (doc₀.kids p).flatMap I.shownAfter := by
  by_cases hhost : p = I.host
  · subst hhost
    have hnodup := I.kids_eq ▸ hdoc₀.nodup_kids I.host
    obtain ⟨hfront, -, hback⟩ := List.nodup_append.1 hnodup
    obtain ⟨-, -, hfront⟩ := List.nodup_append.1 hfront
    have hskip : (I.skip.map Piece.node).flatMap shown = I.skip.map Piece.node := by
      have heq : block = I.before ++ I.skip ++ (I.core ++ I.after) :=
        I.block_eq.trans (List.append_assoc ..)
      refine R.flatMap_shown_eq_self hx horder heq ?_
      obtain ⟨_, _, _, hle, -⟩ := I.span.first
      exact Nat.lt_of_le_of_lt hle hx.lt
    have hahead := I.flatMap_of_disjoint I.ahead fun id hid hmem =>
      hfront id (by simp [hid]) id hmem rfl
    have hbefore := I.flatMap_of_disjoint (I.before.map Piece.node) fun id hid hmem =>
      hfront id (by simp only [List.mem_append, hid, or_true, true_or]) id hmem rfl
    have hskip' := I.flatMap_of_disjoint (I.skip.map Piece.node) fun id hid hmem =>
      hfront id (List.mem_append_right _ hid) id hmem rfl
    have hafter := I.flatMap_of_disjoint (I.after.map Piece.node) fun id hid hmem =>
      hback id (List.mem_append_right _ hmem) id (List.mem_append_left _ hid) rfl
    have hbehind := I.flatMap_of_disjoint I.behind fun id hid hmem =>
      hback id (List.mem_append_right _ hmem) id (List.mem_append_right _ hid) rfl
    rw [I.placed.reshaped.here, I.kids_eq]
    simp only [List.flatMap_append, hahead, hbefore, hskip', hafter, hbehind, I.flatMap_core hdoc₀,
      hskip, List.append_assoc, List.cons_append]
  · rw [I.placed.reshaped.elsewhere p (R.ids p hp) hhost, R.kids p hp]
    refine (flatMap_shownWith_of_disjoint fun id hid hmem => hhost ?_).symm
    exact hdoc₀.parent_unique hid (I.mem_kids hmem)

/-- A piece of the block that is not one of the source ends before it or begins after it. -/
theorem before_or_after (I : Inserted doc₀ block rank x doc replaced shown doc' rs)
    (hx : IsSource blocks block x) {u : Occurrence} (hu : u ∈ occurrences blocks)
    (hstring : u.string = x.string) (hmem : u.piece.node ∉ I.core.map Piece.node) :
    u.offset + u.piece.text.toList.length ≤ x.start ∨ x.stop ≤ u.offset := by
  obtain ⟨z, tail, -, hle, -⟩ := I.span.first
  obtain ⟨init, w, hcore, -, hreach, -⟩ := I.span.last
  refine (hx.before_or_after I.block_eq hu hstring hmem).imp (fun h => Nat.le_trans h hle)
    fun h => ?_
  rw [core, hcore] at h
  simp only [Block.chars_append, Block.chars_cons, Block.chars_nil, List.length_append,
    List.length_nil] at h hreach
  omega

theorem symbols_first (I : Inserted doc₀ block rank x doc replaced shown doc' rs)
    (hroot : doc.IsLoose x.root) (htextroot : doc.text? x.root = none) {us : Block} {c : Piece}
    (hfirst : us = [] ∧ c = I.z ∧ (I.before ++ I.skip ++ us).chars.length ≤ x.start ∧
        x.start < (I.before ++ I.skip ++ us).chars.length + c.text.toList.length ∨
      c.node ≠ I.z.node ∧ x.start < (I.before ++ I.skip ++ us).chars.length) :
    (if c.node = I.z.node then I.left ++ [x.root] else []).flatMap doc'.symbols =
      (c.text.toList.take (x.start - (I.before ++ I.skip ++ us).chars.length)).map .char ++
        if (I.before ++ I.skip ++ us).chars.length ≤ x.start ∧
          x.start < (I.before ++ I.skip ++ us).chars.length + c.text.toList.length
        then [.place x.root] else [] := by
  have hid : x.root ∈ doc.ids := hroot.mem_ids
  rcases hfirst with ⟨rfl, rfl, hle, hlt⟩ | ⟨hne, hlt⟩
  · rw [if_pos rfl, if_pos ⟨hle, hlt⟩, List.flatMap_append, I.placed.remnantLeft.symbols,
      List.flatMap_singleton,
      symbols_of_text?_eq_none ((I.placed.reshaped.text? hid).trans htextroot), List.append_nil]
  · have hzero : x.start - (I.before ++ I.skip ++ us).chars.length = 0 := by omega
    rw [if_neg hne, if_neg (by omega), hzero]
    rfl

theorem symbols_last (I : Inserted doc₀ block rank x doc replaced shown doc' rs)
    (R : Rendering doc₀ blocks rank xs swap doc replaced shown) (hx : IsSource blocks block x)
    (horder : ∀ y ∈ xs, y.string = x.string → x.stop ≤ y.start) {us : Block} {c : Piece}
    (hlast : us = I.init ∧ c = I.w ∧
        x.stop ≤ (I.before ++ I.skip ++ us).chars.length + c.text.toList.length ∧
        (I.before ++ I.skip ++ us).chars.length < x.stop ∨
      c.node ≠ I.w.node ∧
        (I.before ++ I.skip ++ us).chars.length + c.text.toList.length < x.stop) :
    (if c.node = I.w.node then I.right ++ I.rest else []).flatMap doc'.symbols =
      Insertion.shownText xs x.string ((I.before ++ I.skip ++ us).chars.length +
          (x.stop - (I.before ++ I.skip ++ us).chars.length))
        (c.text.toList.drop (x.stop - (I.before ++ I.skip ++ us).chars.length)) := by
  rcases hlast with ⟨rfl, rfl, hreach, hlt⟩ | ⟨hne, hlt⟩
  · have hrest : I.rest.flatMap doc'.symbols = I.rest.flatMap doc.symbols :=
      I.placed.reshaped.flatMap_symbols fun v hv =>
        R.mem_ids_of_mem_shown (I.mem_kids I.last_mem_core)
          (I.front ▸ List.mem_cons_of_mem _ hv)
    have hsplit : block = (I.before ++ I.skip ++ I.init) ++ I.w :: I.after := by
      refine I.block_eq.trans ?_
      simp [core]
    rw [if_pos rfl, List.flatMap_append, I.placed.remnantRight.symbols, hrest,
      R.symbols_rest hx horder hsplit I.textLast I.front I.textFront (Nat.le_of_lt hlt) hreach
        I.enough, Nat.add_sub_cancel' (Nat.le_of_lt hlt)]
  · rw [if_neg hne, List.drop_eq_nil_of_le (by omega)]
    rfl

theorem text_after (I : Inserted doc₀ block rank x doc replaced shown doc' rs)
    (R : Rendering doc₀ blocks rank xs swap doc replaced shown) (hdoc₀ : doc₀.WellFormed)
    (layout : Layout doc₀ blocks) (hx : IsSource blocks block x)
    (horder : ∀ y ∈ xs, y.string = x.string → x.stop ≤ y.start) (hroot : doc.IsLoose x.root)
    (htextroot : doc.text? x.root = none) {u : Occurrence} (hu : u ∈ occurrences blocks)
    (htext : doc₀.text? u.piece.node = some u.piece.text) :
    (I.shownAfter u.piece.node).flatMap doc'.symbols =
      Insertion.shownText (x :: xs) u.string u.offset u.piece.text.toList := by
  have hres := I.placed.reshaped
  by_cases hmem : u.piece.node ∈ I.core.map Piece.node
  · obtain ⟨us, vs, hcore, hstring, hoffset⟩ := hx.occurrence_of_mem layout I.block_eq hu hmem
    obtain ⟨hfirst, hlast⟩ := I.span.core_cases (I.nodup_core hdoc₀) rfl I.head hcore
    have hlater : ∀ y ∈ xs, y.string = x.string → x.stop ≤ y.start := horder
    rw [shownAfter, shownWith, if_pos hmem, hstring, Insertion.shownText_cons hx.lt hlater,
      List.flatMap_append, hoffset]
    congr 1
    · exact I.symbols_first hroot htextroot hfirst
    · exact I.symbols_last R hx horder hlast
  · rw [shownAfter, shownWith_of_not_mem hmem]
    obtain ⟨p, hp⟩ := layout.exists_parent hu
    rw [hres.flatMap_symbols fun v hv => R.mem_ids_of_mem_shown hp hv, R.text u hu htext]
    refine (Insertion.shownText_cons_of_not_covers fun hstring => ?_).symm
    exact I.before_or_after hx hu hstring.symm hmem

theorem mute_after (I : Inserted doc₀ block rank x doc replaced shown doc' rs)
    (R : Rendering doc₀ blocks rank xs swap doc replaced shown) (hdoc₀ : doc₀.WellFormed)
    (layout : Layout doc₀ blocks) (hx : IsSource blocks block x) {u : Occurrence}
    (hu : u ∈ occurrences blocks) (htext : doc₀.text? u.piece.node = none) :
    I.shownAfter u.piece.node =
      if (x :: xs).any fun y => y.surrounds u.string u.offset then [] else [u.piece.node] := by
  have hz : u.piece.node ≠ I.z.node := fun h => by
    rw [h, I.textFirst] at htext
    cases htext
  have hw : u.piece.node ≠ I.w.node := fun h => by
    rw [h, I.textLast] at htext
    cases htext
  by_cases hmem : u.piece.node ∈ I.core.map Piece.node
  · obtain ⟨us, vs, hcore, hstring, hoffset⟩ := hx.occurrence_of_mem layout I.block_eq hu hmem
    obtain ⟨hfirst, hlast⟩ := I.span.core_cases (I.nodup_core hdoc₀) rfl I.head hcore
    have hlt : x.start < u.offset := by
      rcases hfirst with ⟨-, hc, -⟩ | ⟨-, h⟩
      · exact absurd (congrArg Piece.node hc) hz
      · exact hoffset ▸ h
    have hlt' : u.offset < x.stop := by
      rcases hlast with ⟨-, hc, -⟩ | ⟨-, h⟩
      · exact absurd (congrArg Piece.node hc) hw
      · omega
    have hin : x.surrounds u.string u.offset = true := by
      simp [Insertion.surrounds, hstring, hlt, hlt']
    rw [shownAfter, shownWith, if_pos hmem, if_neg hz, if_neg hw, List.any_cons, hin,
      Bool.true_or, if_pos rfl]
    rfl
  · have hout : x.surrounds u.string u.offset = false := by
      rw [← Bool.not_eq_true]
      intro h
      simp only [Insertion.surrounds, Bool.and_eq_true, decide_eq_true_eq] at h
      have := I.before_or_after hx hu h.1.1.symm hmem
      omega
    rw [shownAfter, shownWith_of_not_mem hmem, R.mute u hu htext, List.any_cons, hout,
      Bool.false_or]

/-- The string in which the source begins is the one in which it ends, or as it was. -/
theorem first_eq_or (I : Inserted doc₀ block rank x doc replaced shown doc' rs)
    (R : Rendering doc₀ blocks rank xs swap doc replaced shown) (hx : IsSource blocks block x)
    (horder : ∀ y ∈ xs, y.string = x.string → x.stop ≤ y.start) :
    I.z = I.w ∨ shown I.z.node = [I.z.node] ∧
      Session.current replaced I.z.node = I.z.node := by
  have hhead := I.head
  cases hinit : I.init with
  | nil =>
    rw [hinit] at hhead
    exact .inl (Option.some.inj hhead).symm
  | cons c mid =>
    right
    rw [hinit] at hhead
    obtain rfl : c = I.z := Option.some.inj hhead
    have heq : block = (I.before ++ I.skip) ++ I.init ++ ([I.w] ++ I.after) := by
      refine I.block_eq.trans ?_
      simp [core]
    obtain ⟨init, w, hcore, hlt, -⟩ := I.span.last
    obtain ⟨rfl, -⟩ := List.append_inj' hcore rfl
    exact R.shown_eq_self_of_mem hx horder heq hlt (by simp [hinit])

/-- The strings in which the source begins and ends are among what stands for its pieces. -/
theorem current_first_mem (I : Inserted doc₀ block rank x doc replaced shown doc' rs)
    (R : Rendering doc₀ blocks rank xs swap doc replaced shown) (hx : IsSource blocks block x)
    (horder : ∀ y ∈ xs, y.string = x.string → x.stop ≤ y.start) :
    Session.current replaced I.z.node ∈ shown I.z.node := by
  rcases I.first_eq_or R hx horder with h | ⟨hshown, hcur⟩
  · rw [h, I.front]
    exact List.mem_cons_self ..
  · rw [hshown, hcur]
    exact List.mem_cons_self ..

/-- The replacements of the step concern the strings in which the source begins and ends. -/
theorem current_of_mem_shown (I : Inserted doc₀ block rank x doc replaced shown doc' rs)
    (R : Rendering doc₀ blocks rank xs swap doc replaced shown) (hx : IsSource blocks block x)
    (horder : ∀ y ∈ xs, y.string = x.string → x.stop ≤ y.start) {u v p : NodeId}
    (hu : u ∈ doc₀.kids p) (hmem : u ∉ I.core.map Piece.node) (hv : v ∈ shown u) :
    Session.current rs v = v := by
  refine I.placed.other v (R.mem_ids_of_mem_shown hu hv) ?_ ?_
  · rintro rfl
    refine hmem ?_
    rw [R.origin_unique hu (I.mem_kids I.first_mem_core) hv (I.current_first_mem R hx horder)]
    exact I.first_mem_core
  · rintro rfl
    refine hmem ?_
    rw [R.origin_unique hu (I.mem_kids I.last_mem_core) hv (I.front ▸ List.mem_cons_self ..)]
    exact I.last_mem_core

/-- The head of what stands for a string whose beginning is still there. -/
theorem front_after (I : Inserted doc₀ block rank x doc replaced shown doc' rs)
    (R : Rendering doc₀ blocks rank xs swap doc replaced shown) (hdoc₀ : doc₀.WellFormed)
    (layout : Layout doc₀ blocks) (hx : IsSource blocks block x)
    (horder : ∀ y ∈ xs, y.string = x.string → x.stop ≤ y.start) {u : Occurrence}
    (hu : u ∈ occurrences blocks) (htext : doc₀.text? u.piece.node = some u.piece.text)
    (hfree : ∀ y ∈ x :: xs, y.string = u.string → u.offset < y.start) :
    ∃ n rest, I.shownAfter u.piece.node =
        Session.current (replaced ++ rs) u.piece.node :: rest ∧
      doc'.text? (Session.current (replaced ++ rs) u.piece.node) =
        some (String.ofList (u.piece.text.toList.take n)) ∧
      (u.piece.text.toList.length ≤ n ∨
        ∃ y ∈ x :: xs, y.string = u.string ∧ y.start = u.offset + n) := by
  rw [Item.current_append]
  by_cases hmem : u.piece.node ∈ I.core.map Piece.node
  · obtain ⟨us, vs, hcore, hstring, hoffset⟩ := hx.occurrence_of_mem layout I.block_eq hu hmem
    obtain ⟨hfirst, -⟩ := I.span.core_cases (I.nodup_core hdoc₀) rfl I.head hcore
    have hlt := hfree x (List.mem_cons_self ..) hstring.symm
    rcases hfirst with ⟨rfl, hc, hle, hreach⟩ | ⟨-, h⟩
    · rw [List.append_nil] at hoffset
      rw [hc, shownAfter, shownWith, if_pos (hc ▸ hmem), if_pos rfl]
      rcases I.placed.remnantLeft with ⟨hnil, -⟩ | ⟨head, hleft, hs⟩
      · rw [hc, List.append_nil] at hreach
        have := congrArg List.length hnil
        rw [List.length_take, List.length_nil] at this
        omega
      · rw [I.placed.first head hleft, hleft]
        exact ⟨_, _, rfl, hs, .inr ⟨x, List.mem_cons_self .., hstring.symm, by omega⟩⟩
    · omega
  · obtain ⟨p, hp⟩ := layout.exists_parent hu
    obtain ⟨n, rest, hshown, hs, hn⟩ :=
      R.front u hu htext fun y hy => hfree y (List.mem_cons_of_mem _ hy)
    have hcur := I.current_of_mem_shown R hx horder hp hmem (hshown ▸ List.mem_cons_self ..)
    rw [shownAfter, shownWith_of_not_mem hmem, hcur]
    refine ⟨n, rest, hshown, I.placed.reshaped.text?_eq_some hs, hn.imp id ?_⟩
    rintro ⟨y, hy, h⟩
    exact ⟨y, List.mem_cons_of_mem _ hy, h⟩

/-- A piece that the update has not come to is as it was. -/
theorem untouched_after (I : Inserted doc₀ block rank x doc replaced shown doc' rs)
    (R : Rendering doc₀ blocks rank xs swap doc replaced shown) (hdoc₀ : doc₀.WellFormed)
    (layout : Layout doc₀ blocks) (hx : IsSource blocks block x)
    (horder : ∀ y ∈ xs, y.string = x.string → x.stop ≤ y.start) {u : Occurrence}
    (hu : u ∈ occurrences blocks)
    (hfree : ∀ y ∈ x :: xs, y.string = u.string → u.offset < y.start ∧
      u.offset + u.piece.text.toList.length ≤ y.start) :
    I.shownAfter u.piece.node = [u.piece.node] ∧
      Session.current (replaced ++ rs) u.piece.node = u.piece.node := by
  have hmem : u.piece.node ∉ I.core.map Piece.node := fun hmem => by
    obtain ⟨us, vs, hcore, hstring, hoffset⟩ := hx.occurrence_of_mem layout I.block_eq hu hmem
    obtain ⟨hfirst, -⟩ := I.span.core_cases (I.nodup_core hdoc₀) rfl I.head hcore
    obtain ⟨hlt, hle⟩ := hfree x (List.mem_cons_self ..) hstring.symm
    rcases hfirst with ⟨-, -, -, h⟩ | ⟨-, h⟩ <;> omega
  obtain ⟨p, hp⟩ := layout.exists_parent hu
  obtain ⟨hshown, hcur⟩ := R.untouched u hu fun y hy => hfree y (List.mem_cons_of_mem _ hy)
  have hself : u.piece.node ∈ shown u.piece.node := hshown ▸ List.mem_cons_self ..
  rw [shownAfter, shownWith_of_not_mem hmem, Item.current_append, hcur]
  exact ⟨hshown, I.current_of_mem_shown R hx horder hp hmem hself⟩

theorem other_after (I : Inserted doc₀ block rank x doc replaced shown doc' rs)
    (R : Rendering doc₀ blocks rank xs swap doc replaced shown) (hdoc₀ : doc₀.WellFormed)
    (hx : IsSource blocks block x) (horder : ∀ y ∈ xs, y.string = x.string → x.stop ≤ y.start)
    {id : NodeId} (hid : id ∈ doc₀.ids) (hnot : id ∉ blocks.flatten.map Piece.node) :
    I.shownAfter id = [swap id] ∧ Session.current (replaced ++ rs) id = id := by
  have hcore : ∀ v ∈ I.core.map Piece.node, v ∈ blocks.flatten.map Piece.node := fun v hv => by
    obtain ⟨c, hc, rfl⟩ := List.mem_map.1 hv
    refine List.mem_map_of_mem (List.mem_flatten.2 ⟨block, hx.mem, ?_⟩)
    rw [I.block_eq]
    simp [hc]
  have hlast : id ≠ Session.current replaced I.w.node := by
    intro heq
    rcases R.own _ _ (I.front ▸ List.mem_cons_self ..) with h | h | ⟨-, -, h⟩
    · exact hnot (heq.trans h ▸ hcore _ I.last_mem_core)
    · exact hdoc₀.fresh_not_mem (heq ▸ h) hid
    · rw [I.textFront] at h
      cases h
  have hfirst : id ≠ Session.current replaced I.z.node := by
    rcases I.first_eq_or R hx horder with h | ⟨-, h⟩
    · exact h ▸ hlast
    · exact fun heq => hnot (heq.trans h ▸ hcore _ I.first_mem_core)
  obtain ⟨hshown, hcur⟩ := R.other id hid hnot
  rw [shownAfter, shownWith_of_not_mem fun hm => hnot (hcore id hm), Item.current_append, hcur]
  exact ⟨hshown, I.placed.other id (R.ids id hid) hfirst hlast⟩

theorem mem_shownAfter (I : Inserted doc₀ block rank x doc replaced shown doc' rs) {u v : NodeId}
    (hv : v ∈ I.shownAfter u) : doc.fresh ≤ v ∨ v = x.root ∨ v ∈ shown u := by
  rw [shownAfter, shownWith] at hv
  split at hv
  · rcases List.mem_append.1 hv with hv | hv
    · split at hv
      · rcases List.mem_append.1 hv with hv | hv
        · exact .inl (I.placed.new v (.inl hv))
        · exact .inr (.inl (List.mem_singleton.1 hv))
      · cases hv
    · split at hv
      · rename_i hw
        rcases List.mem_append.1 hv with hv | hv
        · exact .inl (I.placed.new v (.inr hv))
        · exact .inr (.inr (hw ▸ I.front ▸ List.mem_cons_of_mem _ hv))
      · cases hv
  · exact .inr (.inr hv)

theorem own_after (I : Inserted doc₀ block rank x doc replaced shown doc' rs)
    (R : Rendering doc₀ blocks rank xs swap doc replaced shown)
    (htextroot : doc.text? x.root = none) :
    ∀ u, ∀ v ∈ I.shownAfter u, v = u ∨ doc₀.fresh ≤ v ∨
      IsPut (x :: xs) swap v ∧ v ∈ doc'.ids ∧ doc'.text? v = none := by
  have hres := I.placed.reshaped
  have hstays : ∀ v ∈ doc.ids, doc.text? v = none → v ∈ doc'.ids ∧ doc'.text? v = none :=
    fun v hid htext => ⟨hres.ids v hid, (hres.text? hid).trans htext⟩
  intro u v hv
  rcases I.mem_shownAfter hv with hv | rfl | hv
  · exact .inr (.inl (Nat.le_trans R.fresh hv))
  · exact .inr (.inr ⟨.inl ⟨x, List.mem_cons_self .., rfl⟩,
      hstays _ I.awaits.loose.mem_ids htextroot⟩)
  · refine (R.own u v hv).imp id (Or.imp id fun ⟨hput, h⟩ => ⟨?_, hstays v h.1 h.2⟩)
    exact hput.imp (fun ⟨y, hy, hroot⟩ => ⟨y, List.mem_cons_of_mem _ hy, hroot⟩) id

theorem ranked_after (I : Inserted doc₀ block rank x doc replaced shown doc' rs)
    (R : Rendering doc₀ blocks rank xs swap doc replaced shown) (hdoc₀ : doc₀.WellFormed)
    (hx : IsSource blocks block x) (horder : ∀ y ∈ xs, y.string = x.string → x.stop ≤ y.start) :
    doc'.Ranked rank := by
  have hres := I.placed.reshaped
  refine R.ranked.reshaped hres fun c hc => ?_
  rw [← hres.here, I.kids_after R hdoc₀ hx horder I.host_mem] at hc
  obtain ⟨u, hu, hv⟩ := List.mem_flatMap.1 hc
  rcases I.mem_shownAfter hv with hv | rfl | hv
  · exact I.awaits.fresh c hv
  · exact I.awaits.lower
  · exact R.ranked I.host c (R.kids I.host I.host_mem ▸ List.mem_flatMap.2 ⟨u, hu, hv⟩)

theorem isLoose_after (I : Inserted doc₀ block rank x doc replaced shown doc' rs)
    (R : Rendering doc₀ blocks rank xs swap doc replaced shown) (hdoc₀ : doc₀.WellFormed)
    (hx : IsSource blocks block x) (horder : ∀ y ∈ xs, y.string = x.string → x.stop ≤ y.start)
    {c : NodeId} (hc : doc.IsLoose c) (hne : c ≠ x.root) : doc'.IsLoose c := by
  obtain ⟨hid, -, hkids⟩ := R.wellFormed.isLoose_iff.1 hc
  have hres := I.placed.reshaped
  refine hres.isLoose R.wellFormed hc fun hm => ?_
  rw [← hres.here, I.kids_after R hdoc₀ hx horder I.host_mem] at hm
  obtain ⟨u, hu, hv⟩ := List.mem_flatMap.1 hm
  rcases I.mem_shownAfter hv with hv | hv | hv
  · exact R.wellFormed.fresh_not_mem hv hid
  · exact hne hv
  · exact hkids I.host (R.kids I.host I.host_mem ▸ List.mem_flatMap.2 ⟨u, hu, hv⟩)

end Inserted

/-- The step for a source in running text. -/
theorem Rendering.insert (R : Rendering doc₀ blocks rank xs swap doc replaced shown)
    (hdoc₀ : doc₀.WellFormed) (layout : Layout doc₀ blocks) (hx : IsSource blocks block x)
    (horder : ∀ y ∈ xs, y.string = x.string → x.stop ≤ y.start)
    (htextroot : doc.text? x.root = none) {doc' : Document} {rs : List Replacement}
    (I : Inserted doc₀ block rank x doc replaced shown doc' rs) :
    Rendering doc₀ blocks rank (x :: xs) swap doc' (replaced ++ rs) I.shownAfter where
  wellFormed := I.placed.reshaped.wellFormed
  root := I.placed.reshaped.root.trans R.root
  fresh := Nat.le_trans R.fresh I.placed.reshaped.fresh
  ids := fun id hid => I.placed.reshaped.ids id (R.ids id hid)
  shell := fun id hid => (I.placed.reshaped.shell id (R.ids id hid)).trans (R.shell id hid)
  ranked := I.ranked_after R hdoc₀ hx horder
  kids := fun _ hp => I.kids_after R hdoc₀ hx horder hp
  added := R.added_reshaped I.placed.reshaped I.host_mem
  own := I.own_after R htextroot
  text := fun _ hu htext => I.text_after R hdoc₀ layout hx horder I.awaits.loose htextroot hu htext
  mute := fun _ hu htext => I.mute_after R hdoc₀ layout hx hu htext
  front := fun _ hu htext hfree => I.front_after R hdoc₀ layout hx horder hu htext hfree
  untouched := fun _ hu hfree => I.untouched_after R hdoc₀ layout hx horder hu hfree
  other := fun _ hid hnot => I.other_after R hdoc₀ hx horder hid hnot

end

end Formulary
