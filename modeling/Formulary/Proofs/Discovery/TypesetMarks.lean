import Formulary.Proofs.Discovery.StableSort
import Formulary.Proofs.Extraction.RunningText

/-! # What a mark shields

Typeset mathematics is marked, so that a later search does not look inside it.  A search for strings
goes into no marked element, so nothing that it finds begins inside one.  A search for elements goes
into every element but `math`: what it finds may be inside a marked element, if that is called
otherwise.  `discover_shielded` says both, and `discover_framedFormula` shows such an element.  What
a source that looks at places in a way of its own reports may be anywhere.

What an item is inside of are the places on the way down to where it begins
(`Descends.mem_of_below`). -/

namespace Formulary

open Formulary.Tree Document

/-- The place carries the mark of typeset mathematics. -/
def Tree.IsMarked (node : Node) : Prop := (node.attribute? Formula.typesetMark).isSome = true

/-- The item begins at a place below `node`. -/
def Item.BeginsBelow (item : Item) (node : Node) : Prop :=
  ∃ n ∈ subtreesAll node.children, item.start.node = some n.label

section

variable {doc : Document} {container e x : Node} {o : Extraction} {source : Source}

/-! ### The way down to a place -/

theorem Descends.mem_nodes {path : List Node} {parent : Node} (h : Descends container path parent)
    (hc : container ∈ doc.nodes) : parent ∈ doc.nodes := by
  induction h with
  | here => exact hc
  | child _ hchild ih => exact mem_subtreesAll_children hchild ih

theorem Document.WellFormed.parent_eq (h : doc.WellFormed) {p q : Node} (hp : p ∈ doc.nodes)
    (hq : q ∈ doc.nodes) (hxp : x ∈ p.children) (hxq : x ∈ q.children) : p = q :=
  eq_of_label_eq h.distinct hp hq (h.parent_unique (h.kids_label hp ▸ List.mem_map_of_mem hxp)
    (h.kids_label hq ▸ List.mem_map_of_mem hxq))

/-- What a place is below, in the container, is on the way down to it. -/
theorem Descends.mem_of_below (h : doc.WellFormed) (hc : container ∈ doc.nodes) {path : List Node}
    {parent : Node} (hpath : Descends container path parent) (hchild : x ∈ parent.children)
    (he : e ∈ subtreesAll container.children) (hx : x ∈ subtreesAll e.children) : e ∈ path := by
  have he' := mem_subtreesAll_of_below he hc
  induction hpath generalizing x with
  | here =>
    -- what is below the container is not above a child of it
    have hself : container ∉ subtreesAll container.children := fun hmem => by
      have hnodup := nodup_below h.distinct hc
      rw [labels, subtrees_eq, List.map_cons, List.nodup_cons] at hnodup
      exact hnodup.1 (List.mem_map_of_mem hmem)
    rcases mem_or_exists_parent hx with hx | ⟨p, hp, hx⟩
    · exact absurd (h.parent_eq he' hc hx hchild ▸ he) hself
    · have hbelow := mem_subtreesAll_of_below hp he
      exact absurd (h.parent_eq (mem_subtreesAll_of_below hp he') hc hx hchild ▸ hbelow) hself
  | @child path middle parent hpath hmiddle ih =>
    have hparent := (hpath.child hmiddle).mem_nodes hc
    rcases mem_or_exists_parent hx with hx | ⟨p, hp, hx⟩
    · exact h.parent_eq he' hparent hx hchild ▸ List.mem_cons_self ..
    · obtain rfl := h.parent_eq (mem_subtreesAll_of_below hp he') hparent hx hchild
      exact List.mem_cons_of_mem _ (ih hmiddle hp)

/-! ### Where a search goes -/

theorem Extraction.node_ne_of_isMarked (h : doc.WellFormed) (hc : container ∈ doc.nodes)
    {block : Block} (hblock : block ∈ o.find container) {piece : Piece} (hpiece : piece ∈ block)
    (he : e ∈ subtreesAll container.children) (hmark : e.IsMarked) (hx : x ∈ subtreesAll e.children) :
    x.label ≠ piece.node := by
  obtain ⟨⟨path, parent, hpath, hreach, -, hmaximal⟩, -⟩ :=
    ((o.find_stretches container).1 block).1 hblock
  obtain ⟨before, nodes, after, hsiblings, -, -, -, -, rfl, -⟩ := hmaximal
  obtain ⟨n, hn, rfl⟩ := List.mem_map.1 hpiece
  have hchild : n ∈ parent.children := by simp [hsiblings, hn]
  intro hlabel
  have hn' := mem_subtreesAll_children hchild (hpath.mem_nodes hc)
  have hx' := mem_subtreesAll_of_below hx (mem_subtreesAll_of_below he hc)
  obtain rfl := eq_of_label_eq h.distinct hx' hn' hlabel
  have hopens := (hreach e (hpath.mem_of_below h hc hchild he hx)).untypeset
  rw [IsMarked, hopens] at hmark
  cases hmark

/-- Above an element that is found no element is called `math`. -/
theorem exists_descends_of_mem_mathIn {t : Node} (h : x ∈ Source.mathIn t) :
    x = t ∨ ∃ path parent, Descends t path parent ∧ x ∈ parent.children ∧ t.kind ≠ "math" ∧
      ∀ p ∈ path, p.kind ≠ "math" := by
  induction t using induct with
  | step t ih =>
    cases t with
    | string => cases h
    | element label tag attributes children =>
      rw [Source.mathIn] at h
      split at h
      · split at h
        · exact .inl (List.mem_singleton.1 h)
        · cases h
      · rename_i htag
        right
        obtain ⟨c, hc, hx⟩ := Source.mem_mathAmong.1 h
        rcases ih c hc hx with rfl | ⟨path, parent, hpath, hchild, hkind, hpaths⟩
        · exact ⟨[], _, .here, hc, htag, fun p hp => absurd hp List.not_mem_nil⟩
        · refine ⟨path ++ [c], parent, descends_iff.2 (.inr ⟨c, hc, path, rfl, hpath⟩), hchild, htag,
            fun p hp => ?_⟩
          rcases List.mem_append.1 hp with hp | hp
          · exact hpaths p hp
          · exact List.mem_singleton.1 hp ▸ hkind

theorem kind_ne_of_mem_mathAmong (h : doc.WellFormed) (hc : container ∈ doc.nodes) {m : Node}
    (hm : m ∈ Source.mathAmong container.children) (he : e ∈ subtreesAll container.children)
    (hx : x ∈ subtreesAll e.children) (hlabel : x.label = m.label) : e.kind ≠ "math" := by
  have hm' := mem_subtreesAll_of_below ((Source.mathAmong_sublist _).subset hm) hc
  have hx' := mem_subtreesAll_of_below hx (mem_subtreesAll_of_below he hc)
  obtain rfl := eq_of_label_eq h.distinct hx' hm' hlabel
  obtain ⟨t, ht, hmt⟩ := Source.mem_mathAmong.1 hm
  rcases exists_descends_of_mem_mathIn hmt with rfl | ⟨path, parent, hpath, hchild, hkind, hpaths⟩
  · exact absurd (Descends.here.mem_of_below h hc ht he hx) List.not_mem_nil
  · have hway : Descends container (path ++ [t]) parent :=
      descends_iff.2 (.inr ⟨t, ht, path, rfl, hpath⟩)
    rcases List.mem_append.1 (hway.mem_of_below h hc hchild he hx) with hmem | hmem
    · exact hpaths e hmem
    · exact List.mem_singleton.1 hmem ▸ hkind

/-! ### What is found -/

/-- A location in a block is in one of its pieces, or nowhere. -/
theorem exists_piece_of_locate {block : Block} {k : Int} {d : String} {id : NodeId}
    (h : (locate block.runs k d).node = some id) : ∃ piece ∈ block, piece.node = id := by
  induction block generalizing k with
  | nil => cases h
  | cons piece rest ih =>
    rw [Block.runs, List.map_cons, locate] at h
    split at h
    · exact ⟨piece, List.mem_cons_self .., Option.some.inj h⟩
    · obtain ⟨other, hother, hnode⟩ := ih h
      exact ⟨other, List.mem_cons_of_mem _ hother, hnode⟩

theorem Visit.stringKey_head (visit : Visit) (runs : List (Run NodeId)) (k : Int)
    (location : Location NodeId) :
    (visit.stringKey runs k location).head? = some (visit.index : Int) := by
  rw [stringKey]
  split <;> rfl

theorem Visit.itemOfSpot_head (visit : Visit) (source : Source) (spot : Spot) :
    (visit.itemOfSpot source spot).key.head? = some (visit.index : Int) := rfl

/-- An item that a source reports for a container begins inside a marked element only if the source
looks at places, and at elements only if that element is not called `math`. -/
theorem Source.itemsIn_shielded (h : doc.WellFormed) (hc : container ∈ doc.nodes) {index : Nat}
    {found : List Item} (hfound : source.itemsIn doc o index container = .ok found) {item : Item}
    (hitem : item ∈ found) : item.key.head? = some (index : Int) ∧
      ∀ e ∈ subtreesAll container.children, e.IsMarked → item.BeginsBelow e →
        item.source.SeesPlaces ∨ item.source.format = .mathml ∧ e.kind ≠ "math" := by
  rw [itemsIn] at hfound
  split at hfound
  · obtain ⟨x, -, hx⟩ := mem_of_mapM_eq_ok hfound item hitem
    rw [Visit.itemOf, Text.atIndex?] at hx
    split at hx
    · cases hx
    · rename_i block hget
      cases hx
      refine ⟨Visit.stringKey_head .., fun e he hmark hbelow => ?_⟩
      obtain ⟨n, hn, hstart⟩ := hbelow
      obtain ⟨piece, hpiece, hnode⟩ := exists_piece_of_locate hstart
      obtain ⟨i, -, hblock⟩ := Option.bind_eq_some_iff.1 hget
      exact absurd hnode.symm (o.node_ne_of_isMarked h hc (List.mem_of_getElem? hblock) hpiece he
        hmark hn)
  · cases hfound
    obtain ⟨spot, hspot, rfl⟩ := List.mem_map.1 hitem
    refine ⟨Visit.itemOfSpot_head .., fun e he _ hbelow => ?_⟩
    rw [spots] at hspot
    split at hspot
    · rename_i hformat
      rw [elements_eq h hc, List.map_map] at hspot
      obtain ⟨m, hm, rfl⟩ := List.mem_map.1 hspot
      obtain ⟨n, hn, hstart⟩ := hbelow
      exact .inr ⟨hformat, kind_ne_of_mem_mathAmong h hc hm he hn (Option.some.inj hstart).symm⟩
    · rename_i name find read hformat
      exact .inl ⟨name, find, read, hformat⟩
    · exact absurd hspot List.not_mem_nil
    · exact absurd hspot List.not_mem_nil

end

/-- An item that a discovery finds in a container, which is the one that its key begins with, does
not begin inside a marked element of that container, unless it is an element that a search for
elements finds and the marked one is not called `math`, or its source looks at places in a way of
its own. -/
theorem discover_shielded (doc : Document) (hdoc : doc.WellFormed) (o : Extraction)
    (containers : List NodeId) (sources : List Source) (survey : Survey)
    (hrun : discover doc o containers sources [] = .ok survey) :
    ∀ item ∈ survey.items, ∃ (i : Nat) (id : NodeId) (container : Node),
      containers[i]? = some id ∧ doc.find? id = some container ∧ item.key.head? = some (i : Int) ∧
      ∀ e ∈ subtreesAll container.children, e.IsMarked → item.BeginsBelow e →
        item.source.SeesPlaces ∨ item.source.format = .mathml ∧ e.kind ≠ "math" := by
  intro item hitem
  obtain ⟨found, hfound, hitems⟩ := discover_found hrun
  rw [hitems] at hitem
  obtain ⟨i, id, container, hi, hfind, source, -, own, hown, hmem⟩ :=
    exists_of_mem_itemsFrom hfound ((sortByKey_isStableSort _).perm.mem_iff.1 hitem)
  obtain ⟨hkey, hshield⟩ := Source.itemsIn_shielded hdoc (mem_of_find? hfind).1 hown hmem
  exact ⟨i, id, container, hi, hfind, by simpa using hkey, hshield⟩

/-- A paragraph with a formula and a typeset form that is no `math` element but holds one. -/
def Document.framedFormula : Document :=
  .ofFragments [.build "p" [] [.text "$x$", .build "span" [("data-mathscan", "TeX")]
    [.build "math" [] [.build "mi" [] [.text "y"]]]]]

theorem Document.exists_discover_framedFormula :
    ∃ survey, discover framedFormula {} [framedFormula.body] [.tex, .mathml] [] = .ok survey := by
  refine exists_discoverFrom (wellFormed_ofFragments _) ?_ ?_
  · intro source hsource ⟨name, find, read, hformat⟩
    rcases List.mem_pair.1 hsource with rfl | rfl <;> cases hformat
  · intro id hid
    obtain ⟨container, hc⟩ := exists_body framedFormula
    rw [List.mem_singleton.1 hid]
    exact find?_isSome_iff.1 (hc ▸ rfl)

theorem discover_shielded_framedFormula : framedFormula.WellFormed ∧ ∃ survey,
    discover framedFormula {} [framedFormula.body] [.tex, .mathml] [] = .ok survey ∧
    ∀ item ∈ survey.items, ∃ (i : Nat) (id : NodeId) (container : Node),
      [framedFormula.body][i]? = some id ∧ framedFormula.find? id = some container ∧
      item.key.head? = some (i : Int) ∧
      ∀ e ∈ subtreesAll container.children, e.IsMarked → item.BeginsBelow e →
        item.source.SeesPlaces ∨ item.source.format = .mathml ∧ e.kind ≠ "math" := by
  have hdoc : framedFormula.WellFormed := wellFormed_ofFragments _
  obtain ⟨survey, hsurvey⟩ := exists_discover_framedFormula
  exact ⟨hdoc, survey, hsurvey, discover_shielded framedFormula hdoc {} _ _ survey hsurvey⟩

/-- The element in the typeset form is found. -/
theorem discover_framedFormula : ∃ survey container item e,
    discover framedFormula {} [framedFormula.body] [.tex, .mathml] [] = .ok survey ∧
    framedFormula.find? framedFormula.body = some container ∧ item ∈ survey.items ∧
    e ∈ subtreesAll container.children ∧ e.IsMarked ∧ item.BeginsBelow e := by
  obtain ⟨survey, hsurvey⟩ := exists_discover_framedFormula
  obtain ⟨found, hfound, hitems⟩ := discover_found hsurvey
  obtain ⟨container, hget, hfound⟩ := Reader.exists_ok_of_bind hfound
  obtain rfl : framedFormula.root = container := Except.ok.inj hget
  obtain ⟨first, hfirst, hfound⟩ := Reader.exists_ok_of_bind hfound
  obtain ⟨seen, -, hfirst⟩ := Reader.exists_ok_of_bind hfirst
  have helements : Source.elements framedFormula framedFormula.root = [(4, false)] := by
    decide +kernel
  let visit : Visit := { index := 0, container := framedFormula.root, items := [] }
  let item := visit.itemOfElement .mathml 4 false
  have hrest : itemsIn framedFormula {} 0 framedFormula.root [.mathml] = .ok [item] := by
    rw [itemsIn_elements rfl, helements]
    rfl
  rw [hrest] at hfirst
  cases hfirst
  cases hfound
  have hmem : item ∈ survey.items := by
    rw [hitems]
    exact (sortByKey_isStableSort _).perm.mem_iff.2 (by simp)
  obtain ⟨e, he, hmark, n, hn, hlabel⟩ : ∃ e ∈ subtreesAll framedFormula.root.children,
      (e.attribute? Formula.typesetMark).isSome = true ∧
        ∃ n ∈ subtreesAll e.children, n.label = 4 := by decide
  refine ⟨survey, framedFormula.root, item, e, hsurvey, rfl, hmem, he, hmark, n,
    hn, congrArg some hlabel.symm⟩

end Formulary
