import Formulary.Proofs.Search.ChangedDocument

/-! # What a search misses of a hidden place

A hidden place is passed over with all that is in it.  So the blocks that are left are those none
of whose pieces is in a hidden place (`filled_blocksOf_hide`), and the elements that are left are
those that are neither hidden nor in a hidden place (`elementsOf_hide`). -/

namespace Formulary

open Formulary.Tree Document

section

variable {hide gone : NodeId → Bool} {w : Watch}

theorem marksIn_eq_nil (t : Node) (hr : w.reads = false) (hs : w.seeks = false) :
    marksIn hide w t = [] := by
  induction t using induct generalizing w with
  | step t ih =>
    have hown : w.own t = [] := by
      cases t with
      | string => rfl
      | element => simp [Watch.own, hs]
    have hinside : marksAmong hide (w.inside t) t.children = [] := by
      rw [marksAmong_eq_flatMap]
      refine List.flatMap_eq_nil_iff.2 fun c hc => ih c hc ?_ ?_
      · cases t with
        | string => cases hc
        | element => simp [Watch.inside, hr]
      · cases t with
        | string => cases hc
        | element => simp [Watch.inside, hs]
    rw [marksIn_eq, Watch.before_of_unread hr, hown, Watch.after_of_unread hr, hinside]
    simp

theorem marksAmong_eq_nil (ts : List Node) (hr : w.reads = false) (hs : w.seeks = false) :
    marksAmong hide w ts = [] := by
  rw [marksAmong_eq_flatMap]
  exact List.flatMap_eq_nil_iff.2 fun t _ => marksIn_eq_nil t hr hs

/-! ### Blocks -/

/-- What is in a place is gone if the place is gone or hidden. -/
def Covers (hide gone : NodeId → Bool) (n : Node) : Prop :=
  ∀ c ∈ n.children, gone c.label = (gone n.label || hide n.label)

/-- The blocks of a search that are not gone. -/
def kept (gone : NodeId → Bool) (blocks : List Block) : List Block :=
  blocks.filter fun block => block.all fun p => !gone p.node

@[simp] theorem kept_append (a b : List Block) : kept gone (a ++ b) = kept gone a ++ kept gone b :=
  List.filter_append ..

theorem kept_singleton {block : Block} (h : ∀ p ∈ block, gone p.node = false) :
    kept gone [block] = [block] := by
  refine List.filter_eq_self.2 fun b hb => List.all_eq_true.2 fun p hp => ?_
  rw [h p (List.mem_singleton.1 hb ▸ hp)]
  rfl

theorem mem_of_mem_blocksOf {pending block : Block} {marks : List Mark} {p : Piece}
    (hb : block ∈ blocksOf pending marks) (hp : p ∈ block) : p ∈ pending ∨ .piece p ∈ marks := by
  induction marks generalizing pending with
  | nil => exact .inl (List.mem_singleton.1 hb ▸ hp)
  | cons k rest ih =>
    cases k with
    | piece q =>
      rcases ih hb with h | h
      · rcases List.mem_append.1 h with h | h
        · exact .inl h
        · exact .inr (by simp [List.mem_singleton.1 h])
      · exact .inr (List.mem_cons_of_mem _ h)
    | stop =>
      rcases List.mem_cons.1 hb with rfl | hb
      · exact .inl hp
      · rcases ih hb with h | h
        · cases h
        · exact .inr (List.mem_cons_of_mem _ h)
    | element m display => exact (ih hb).imp_right (List.mem_cons_of_mem _)

theorem kept_filled_eq_nil {marks : List Mark}
    (h : ∀ p, .piece p ∈ marks → gone p.node = true) :
    kept gone (filled (blocksOf [] marks)) = [] := by
  refine List.filter_eq_nil_iff.2 fun block hblock hall => ?_
  obtain ⟨hmem, hfilled⟩ := List.mem_filter.1 hblock
  cases block with
  | nil => exact absurd hfilled (by decide)
  | cons p rest =>
    have hgone := List.all_eq_true.1 hall p (List.mem_cons_self ..)
    rcases mem_of_mem_blocksOf hmem (List.mem_cons_self ..) with hp | hp
    · cases hp
    · rw [h p hp] at hgone
      exact absurd hgone (by decide)

/-- The pieces in a place that is gone or hidden are gone. -/
theorem gone_of_piece_mem {t : Node} (hpiece : ({} : Extraction).piece? t = none)
    (hcovers : ∀ n ∈ t.subtrees, ({} : Extraction).piece? n = none → Covers hide gone n)
    (hgone : gone t.label = true ∨ hide t.label = true) {p : Piece}
    (hp : .piece p ∈ marksAmong hideNone w t.children) : gone p.node = true := by
  induction t using induct generalizing w with
  | step t ih =>
    rw [marksAmong_eq_flatMap] at hp
    obtain ⟨c, hc, hp⟩ := List.mem_flatMap.1 hp
    have hchild : gone c.label = true := by
      rw [hcovers t t.self_mem_subtrees hpiece c hc, Bool.or_eq_true]
      exact hgone
    rcases piece_mem_marksIn hp with ⟨hnode, -⟩ | hbelow
    · exact hnode ▸ hchild
    · cases hc' : ({} : Extraction).piece? c with
      | some q =>
        obtain ⟨m, display, heq⟩ := @areQuiet_inside hideNone w _ _ hc' _ hbelow
        cases heq
      | none =>
        refine ih c hc hc' (fun n hn => hcovers n ?_) (.inl hchild) hbelow
        exact mem_subtrees_of_child hc hn

/-- A block none of whose pieces is gone is kept, if it holds more than blanks. -/
theorem kept_filled_singleton {block : Block} (h : ∀ p ∈ block, gone p.node = false) :
    kept gone (filled [block]) = filled [block] := by
  cases hblank : Text.isBlankText block.string with
  | true => simp [filled, kept, hblank]
  | false =>
    have hself : filled [block] = [block] := by simp [filled, hblank]
    rw [hself, kept_singleton h]

theorem filled_blocksOf_hide_of_forall (hr : w.reads = true) {ts : List Node}
    (hts : ∀ t ∈ ts, gone t.label = false)
    (h : ∀ t ∈ ts, ({} : Extraction).piece? t = none →
      filled (blocksOf []
          (if hide t.label then [] else marksAmong hide (w.inside t) t.children)) =
        kept gone (filled (blocksOf [] (marksAmong hideNone (w.inside t) t.children))))
    {pending : Block} (hpending : ∀ p ∈ pending, gone p.node = false) :
    filled (blocksOf pending (marksAmong hide w ts)) =
      kept gone (filled (blocksOf pending (marksAmong hideNone w ts))) := by
  induction ts generalizing pending with
  | nil => exact (kept_filled_singleton hpending).symm
  | cons t rest ih =>
    have hrest := @ih (fun u hu => hts u (List.mem_cons_of_mem _ hu))
      fun u hu => h u (List.mem_cons_of_mem _ hu)
    rw [marksAmong, marksAmong]
    cases hpiece : ({} : Extraction).piece? t with
    | some p =>
      have hquiet := areQuiet_ite (p := hide t.label) (@areQuiet_inside hide w _ _ hpiece)
      have hquiet' := areQuiet_ite (p := hideNone t.label) (@areQuiet_inside hideNone w _ _ hpiece)
      rw [marksIn_of_piece? hpiece, marksIn_of_piece? hpiece, List.append_assoc, List.append_assoc]
      cases hi : w.ignores with
      | true =>
        rw [Watch.before_of_ignored hpiece hi, List.nil_append, List.nil_append,
          hquiet.blocksOf_append, hquiet'.blocksOf_append]
        exact hrest hpending
      | false =>
        rw [Watch.before_of_text hpiece hr hi, List.singleton_append, List.singleton_append, blocksOf,
          blocksOf, hquiet.blocksOf_append, hquiet'.blocksOf_append]
        refine hrest fun q hq => ?_
        rcases List.mem_append.1 hq with hq | hq
        · exact hpending q hq
        · rw [List.mem_singleton.1 hq, Extraction.piece?_node hpiece]
          exact hts t (List.mem_cons_self ..)
    | none =>
      have hinside := h t (List.mem_cons_self ..) hpiece
      rw [marksIn_of_stop hpiece hr, marksIn_of_stop hpiece hr, List.append_assoc, List.append_assoc,
        (areQuiet_ite (w.areQuiet_own t)).blocksOf_append,
        (areQuiet_ite (w.areQuiet_own t)).blocksOf_append]
      simp only [List.cons_append, List.append_assoc, List.nil_append, blocksOf]
      rw [blocksOf_append_stop, blocksOf_append_stop, filled_cons_eq_append pending (_ ++ _),
        filled_cons_eq_append pending (_ ++ _), filled_append, hinside, hrest (List.forall_mem_nil _)]
      simp only [filled_append, kept_append, kept_filled_singleton hpending]
      rfl

/-- A search has the blocks left none of whose pieces is in a hidden place. -/
theorem filled_blocksOf_hide (hr : w.reads = true) {ts : List Node}
    (hts : ∀ t ∈ ts, gone t.label = false)
    (hcovers : ∀ n ∈ subtreesAll ts, ({} : Extraction).piece? n = none → Covers hide gone n) :
    filled (blocksOf [] (marksAmong hide w ts)) =
      kept gone (filled (blocksOf [] (marksAmong hideNone w ts))) := by
  refine filled_blocksOf_hide_of_forall hr hts (fun t ht hpiece => ?_) (by simp)
  have hbelow : ∀ n ∈ t.subtrees, ({} : Extraction).piece? n = none → Covers hide gone n :=
    fun n hn => hcovers n (mem_subtreesAll.2 ⟨t, ht, hn⟩)
  have hgone := hts t ht
  clear hcovers hts ht
  induction t using induct generalizing w with
  | step t ih =>
    cases hhide : hide t.label with
    | true => exact (kept_filled_eq_nil fun p hp =>
        gone_of_piece_mem hpiece hbelow (.inr hhide) hp).symm
    | false =>
      rw [if_neg (by decide)]
      cases hr' : (w.inside t).reads with
      | true =>
        refine filled_blocksOf_hide_of_forall hr' (fun c hc => ?_)
          (fun c hc hpiece' => ih c hc hr' hpiece' (fun n hn => hbelow n ?_) ?_) (by simp)
        · rw [hbelow t t.self_mem_subtrees hpiece c hc, hgone, hhide]
          rfl
        · exact mem_subtrees_of_child hc hn
        · rw [hbelow t t.self_mem_subtrees hpiece c hc, hgone, hhide]
          rfl
      | false =>
        have hnil := (@areQuiet_marksAmong hide _ hr' t.children).blocksOf_append [] []
        have hnil' := (@areQuiet_marksAmong hideNone _ hr' t.children).blocksOf_append [] []
        rw [List.append_nil] at hnil hnil'
        rw [hnil, hnil']
        rfl

theorem AreQuiet.filter_eq_nil {quiet : List Mark} (h : AreQuiet quiet) :
    quiet.filter (fun k => k.element?.isNone) = [] :=
  List.filter_eq_nil_iff.2 fun k hk => by
    obtain ⟨m, display, rfl⟩ := h k hk
    exact Bool.false_ne_true

theorem blocksOf_filter (pending : Block) (marks : List Mark) :
    blocksOf pending (marks.filter fun k => k.element?.isNone) = blocksOf pending marks := by
  induction marks generalizing pending with
  | nil => rfl
  | cons k rest ih =>
    cases k with
    | piece p => exact ih _
    | stop => exact congrArg (pending :: ·) (ih [])
    | element m display => exact ih _

/-- Where only pieces are hidden, no text is. -/
theorem filter_marksIn_hide (t : Node)
    (h : ∀ n ∈ t.subtrees, hide n.label = true → (({} : Extraction).piece? n).isSome = true) :
    (marksIn hide w t).filter (fun k => k.element?.isNone) =
      (marksIn hideNone w t).filter fun k => k.element?.isNone := by
  induction t using induct generalizing w with
  | step t ih =>
    rw [marksIn_hideNone, marksIn_eq]
    simp only [List.filter_append, (areQuiet_ite (w.areQuiet_own t)).filter_eq_nil,
      (w.areQuiet_own t).filter_eq_nil]
    congr 2
    cases hhide : hide t.label with
    | true =>
      obtain ⟨p, hpiece⟩ := Option.isSome_iff_exists.1 (h t t.self_mem_subtrees hhide)
      exact (@areQuiet_inside hideNone w _ _ hpiece).filter_eq_nil.symm
    | false =>
      rw [if_neg (by decide), marksAmong_eq_flatMap, marksAmong_eq_flatMap, List.filter_flatMap,
        List.filter_flatMap]
      refine List.flatMap_congr fun c hc => ih c hc fun n hn => h n ?_
      exact mem_subtrees_of_child hc hn

theorem blocksOf_hide {ts : List Node}
    (h : ∀ n ∈ subtreesAll ts, hide n.label = true → (({} : Extraction).piece? n).isSome = true) :
    blocksOf [] (marksAmong hide w ts) = blocksOf [] (marksAmong hideNone w ts) := by
  rw [← blocksOf_filter, ← blocksOf_filter [] (marksAmong hideNone w ts), marksAmong_eq_flatMap,
    marksAmong_eq_flatMap, List.filter_flatMap, List.filter_flatMap]
  exact congrArg _ (List.flatMap_congr fun t ht => filter_marksIn_hide t fun n hn =>
    h n (mem_subtreesAll.2 ⟨t, ht, hn⟩))

/-! ### Elements -/

/-- The elements of a search that are neither hidden nor in a hidden place. -/
def elementsLeft (hide gone : NodeId → Bool) (elements : List (NodeId × Bool)) :
    List (NodeId × Bool) :=
  elements.filter fun e => !(gone e.1 || hide e.1)

@[simp] theorem elementsLeft_append (a b : List (NodeId × Bool)) :
    elementsLeft hide gone (a ++ b) = elementsLeft hide gone a ++ elementsLeft hide gone b :=
  List.filter_append ..

theorem elementsLeft_eq_nil {elements : List (NodeId × Bool)}
    (h : ∀ e ∈ elements, gone e.1 = true) : elementsLeft hide gone elements = [] :=
  List.filter_eq_nil_iff.2 fun e he => by simp [h e he]

theorem elementsOf_hide_of_forall {ts : List Node}
    (h : ∀ t ∈ ts, elementsOf (marksIn hide w t) =
      elementsLeft hide gone (elementsOf (marksIn hideNone w t))) :
    elementsOf (marksAmong hide w ts) =
      elementsLeft hide gone (elementsOf (marksAmong hideNone w ts)) := by
  induction ts with
  | nil => rfl
  | cons t rest ih =>
    rw [marksAmong, marksAmong, elementsOf_append, elementsOf_append, elementsLeft_append,
      h t (List.mem_cons_self ..), ih fun u hu => h u (List.mem_cons_of_mem _ hu)]

theorem label_of_mem_own {t : Node} {e : NodeId × Bool} (h : e ∈ elementsOf (w.own t)) :
    e.1 = t.label := by
  cases t with
  | string => cases h
  | element label tag attributes children =>
    rw [Watch.own] at h
    split at h
    · rw [List.mem_singleton.1 h]
      rfl
    · cases h

/-- What is in a place that is gone or hidden is gone. -/
theorem gone_below {t : Node} (hcovers : ∀ n ∈ t.subtrees, Covers hide gone n)
    (hgone : gone t.label = true ∨ hide t.label = true) :
    ∀ n ∈ subtreesAll t.children, gone n.label = true := by
  induction t using induct with
  | step t ih =>
    intro n hn
    obtain ⟨c, hc, hn⟩ := mem_subtreesAll.1 hn
    have hchild : gone c.label = true := by
      rw [hcovers t t.self_mem_subtrees c hc, Bool.or_eq_true]
      exact hgone
    rw [subtrees_eq] at hn
    rcases List.mem_cons.1 hn with rfl | hn
    · exact hchild
    · refine ih c hc (fun u hu => hcovers u ?_) (.inl hchild) n hn
      exact mem_subtrees_of_child hc hu

theorem elementsOf_marksIn_hide (t : Node) (hcovers : ∀ n ∈ t.subtrees, Covers hide gone n)
    (hgone : gone t.label = false) :
    elementsOf (marksIn hide w t) =
      elementsLeft hide gone (elementsOf (marksIn hideNone w t)) := by
  induction t using induct generalizing w with
  | step t ih =>
    rw [marksIn_hideNone, marksIn_eq]
    simp only [elementsOf_append, Watch.elementsOf_before, Watch.elementsOf_after,
      List.append_nil, elementsLeft_append]
    cases hhide : hide t.label with
    | true =>
      have hown : elementsLeft hide gone (elementsOf (w.own t)) = [] :=
        List.filter_eq_nil_iff.2 fun e he => by simp [label_of_mem_own he, hhide]
      have hinside : elementsLeft hide gone
          (elementsOf (marksAmong hideNone (w.inside t) t.children)) = [] := by
        refine elementsLeft_eq_nil fun e he => ?_
        obtain ⟨n, hn, heq⟩ := List.mem_map.1
          ((placesOf_marksAmong_sublist t.children).subset (mem_placesOf_of_mem_elementsOf he))
        exact heq ▸ gone_below hcovers (.inr hhide) n hn
      rw [if_pos rfl, if_pos rfl, hown, hinside]
      rfl
    | false =>
      have hown : elementsLeft hide gone (elementsOf (w.own t)) = elementsOf (w.own t) :=
        List.filter_eq_self.2 fun e he => by simp [label_of_mem_own he, hhide, hgone]
      rw [if_neg (by decide), if_neg (by decide), hown]
      refine congrArg _ (elementsOf_hide_of_forall fun c hc => ih c hc (fun n hn => hcovers n ?_) ?_)
      · exact mem_subtrees_of_child hc hn
      · rw [hcovers t t.self_mem_subtrees c hc, hgone, hhide]
        rfl

/-- A search has the elements left that are neither hidden nor in a hidden place. -/
theorem elementsOf_hide {ts : List Node} (hts : ∀ t ∈ ts, gone t.label = false)
    (hcovers : ∀ n ∈ subtreesAll ts, Covers hide gone n) :
    elementsOf (marksAmong hide w ts) =
      elementsLeft hide gone (elementsOf (marksAmong hideNone w ts)) :=
  elementsOf_hide_of_forall fun t ht => elementsOf_marksIn_hide t
    (fun n hn => hcovers n (mem_subtreesAll.2 ⟨t, ht, hn⟩)) (hts t ht)

end

/-! ### Places below others -/

/-- Whether a place is below one of some places. -/
def Document.isBelow (doc : Document) (tops : NodeId → Bool) (id : NodeId) : Bool :=
  doc.nodes.any fun n => tops n.label && n.holds id

section

variable {doc : Document} {tops : NodeId → Bool}

theorem holds_iff {n : Node} {id : NodeId} :
    n.holds id = true ↔ id ∈ (subtreesAll n.children).map label := by
  rw [holds, List.any_eq_true, List.mem_map]
  exact exists_congr fun t => and_congr_right fun _ => decide_eq_true_iff

theorem isBelow_iff {id : NodeId} : doc.isBelow tops id = true ↔
    ∃ n ∈ doc.nodes, tops n.label = true ∧ id ∈ (subtreesAll n.children).map label := by
  simp only [isBelow, List.any_eq_true, Bool.and_eq_true, holds_iff]

theorem Document.WellFormed.isBelow_child (h : doc.WellFormed) {n c : Node} (hn : n ∈ doc.nodes)
    (hc : c ∈ n.children) :
    doc.isBelow tops c.label = (doc.isBelow tops n.label || tops n.label) := by
  have hc' := mem_subtreesAll_children hc hn
  rw [Bool.eq_iff_iff, Bool.or_eq_true, isBelow_iff, isBelow_iff]
  constructor
  · rintro ⟨d, hd, htop, hbelow⟩
    obtain ⟨c', hc'', hlabel⟩ := List.mem_map.1 hbelow
    obtain rfl : c' = c :=
      eq_of_label_eq h.distinct (mem_subtreesAll_of_below hc'' hd) hc' hlabel
    have hkid : ∀ {t : Node}, t ∈ doc.nodes → c' ∈ t.children → t = n := fun ht hmem =>
      eq_of_label_eq h.distinct ht hn (h.parent_unique
        (h.kids_label ht ▸ List.mem_map_of_mem hmem) (h.kids_label hn ▸ List.mem_map_of_mem hc))
    rcases mem_or_exists_parent hc'' with hmem | ⟨t, ht, hmem⟩
    · exact .inr (hkid hd hmem ▸ htop)
    · refine .inl ⟨d, hd, htop, ?_⟩
      rw [← hkid (mem_subtreesAll_of_below ht hd) hmem]
      exact List.mem_map_of_mem ht
  · rintro (⟨d, hd, htop, hbelow⟩ | htop)
    · obtain ⟨n', hn', hlabel⟩ := List.mem_map.1 hbelow
      obtain rfl : n' = n :=
        eq_of_label_eq h.distinct (mem_subtreesAll_of_below hn' hd) hn hlabel
      exact ⟨d, hd, htop, List.mem_map_of_mem (mem_subtreesAll_children hc hn')⟩
    · exact ⟨n, hn, htop, List.mem_map_of_mem (mem_subtreesAll_of_mem hc)⟩

theorem Document.WellFormed.isBelow_kid (h : doc.WellFormed) {p id : NodeId}
    (hkid : id ∈ doc.kids p) : doc.isBelow tops id = (doc.isBelow tops p || tops p) := by
  obtain ⟨n, hn⟩ := exists_of_mem_ids (mem_ids_of_mem_kids hkid).2
  obtain ⟨hmem, rfl⟩ := mem_of_find? hn
  rw [h.kids_label hmem] at hkid
  obtain ⟨c, hc, rfl⟩ := List.mem_map.1 hkid
  exact h.isBelow_child hmem hc

theorem Document.WellFormed.isBelow_eq_false (h : doc.WellFormed) {container c : Node}
    (hcontainer : container ∈ doc.nodes)
    (htops : ∀ id, tops id = true → id ∈ (subtreesAll container.children).map label)
    (hc : c ∈ container.children) : doc.isBelow tops c.label = false := by
  have hself := h.label_not_mem hcontainer
  rw [h.isBelow_child hcontainer hc, Bool.or_eq_false_iff]
  refine ⟨Bool.eq_false_iff.2 fun hbelow => ?_, Bool.eq_false_iff.2 fun htop => hself (htops _ htop)⟩
  obtain ⟨d, hd, htop, hin⟩ := isBelow_iff.1 hbelow
  obtain ⟨d', hd', hlabel⟩ := List.mem_map.1 (htops _ htop)
  obtain rfl : d' = d :=
    eq_of_label_eq h.distinct (mem_subtreesAll_of_below hd' hcontainer) hd hlabel
  obtain ⟨n, hn, heq⟩ := List.mem_map.1 hin
  exact hself (heq ▸ List.mem_map_of_mem (mem_subtreesAll_of_below hn hd'))

end

end Formulary
