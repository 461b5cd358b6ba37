import Formulary.Proofs.Formula.ContentElements
import Formulary.Proofs.Restoration.SecondDiscovery

/-! # Typeset forms in a document

A typeset form that is in the document is as it was made (`Session.Rendered.exists_form`), so no
formula brings running content along, and the running content of a rendered document is where it
was (`Session.Rendered.body_eq`). -/

namespace Formulary

open Formulary.Tree Document Insertion

theorem Tree.isBodiless_fragment {t : Node} : t.fragment.IsBodiless ↔ t.IsBodiless := by
  induction t using induct with
  | step t ih =>
    cases t with
    | string label kind value =>
      exact ⟨fun _ => isBodiless_string, fun _ => isBodiless_string⟩
    | element label tag attributes children =>
      rw [fragment, Tree.map, mapAll_eq_map_fragment, isBodiless_element, isBodiless_element,
        List.forall_mem_map]
      exact and_congr_right fun _ => forall₂_congr ih

namespace Session.Rendered

variable {s s' : Session} (D : s.Rendered s')

theorem mem_ids_of_below {id : NodeId}
    (hid : id ∈ (subtreesAll D.container.children).map label) : id ∈ s.document.ids := by
  obtain ⟨n, hn, rfl⟩ := List.mem_map.1 hid
  exact List.mem_map_of_mem (mem_subtreesAll_of_below hn D.mem_nodes)

theorem below_of_mem_blocks {id : NodeId} (hid : id ∈ D.blocks.flatten.map Piece.node) :
    id ∈ (subtreesAll D.container.children).map label :=
  (D.blocks_eq ▸ Extraction.find_sublist {} D.container).subset hid

section

variable (h : s.document.WellFormed) (hs : Source.AreUsual s.sources)

include h hs

/-- An element that gives way was found in the container, and has an item. -/
theorem exists_of_swap_ne {id : NodeId} (hne : D.swap id ≠ id) :
    ∃ n ∈ Source.mathAmong D.container.children, n.label = id ∧ ∃ t ∈ D.added,
      D.swap id = t.label ∧ (Find.element id (Source.isDisplay n)).inserted s.document D.container
        D.blocks t.label ∈ s'.items := by
  have hswap : ∃ root, .element id root ∈ targetsOf D.finds D.added := by
    by_contra hnone
    exact hne (Target.swap_of_not_mem fun root hmem => hnone ⟨root, hmem⟩)
  obtain ⟨root, hmem⟩ := hswap
  obtain ⟨f, hf, t, ht, -, heq, hitem⟩ := D.exists_of_mem_targets hmem
  rcases mem_findsOf hs (D.survey.perm.mem_iff.1 hf) with ⟨x, -, rfl⟩ | ⟨n, hn, rfl⟩
  · cases heq
  · obtain ⟨rfl, rfl⟩ := Target.element.inj heq
    exact ⟨n, hn, rfl, t, ht, Target.swap_of_mem (D.pairwise_targets h hs) hmem, hitem⟩

omit h hs in
theorem below_of_mem_mathAmong {n : Node} (hn : n ∈ Source.mathAmong D.container.children) :
    n.label ∈ (subtreesAll D.container.children).map label :=
  List.mem_map_of_mem ((Source.mathAmong_sublist _).subset hn)

omit h hs in
theorem exists_inserted {f : Find} (hf : f ∈ D.finds) (hread : f.isRead = true) :
    ∃ t ∈ D.added, f.inserted s.document D.container D.blocks t.label ∈ s'.items := by
  obtain ⟨i, hi, rfl⟩ := List.mem_iff_getElem.1 (List.mem_filter.2 ⟨hf, hread⟩)
  have hi' : i < D.added.length := D.length ▸ hi
  refine ⟨_, List.getElem_mem hi', D.items ▸ List.mem_iff_getElem.2 ⟨i, ?_, List.getElem_zipWith⟩⟩
  rw [List.length_zipWith]
  exact Nat.lt_min.2 ⟨hi, hi'⟩

omit h hs in
theorem exists_of_mem_items {item : Item} (hitem : item ∈ s'.items) :
    ∃ f ∈ D.finds, ∃ t ∈ D.added, f.target t.label ∈ targetsOf D.finds D.added ∧
      item = f.inserted s.document D.container D.blocks t.label := by
  rw [D.items] at hitem
  obtain ⟨i, hi, rfl⟩ := List.mem_iff_getElem.1 hitem
  have hi' := hi
  rw [List.length_zipWith, Nat.lt_min] at hi'
  refine ⟨_, (List.mem_filter.1 (List.getElem_mem hi'.1)).1, _, List.getElem_mem hi'.2, ?_, ?_⟩
  · exact List.mem_iff_getElem.2 ⟨i, by simpa [targetsOf] using hi, List.getElem_zipWith⟩
  · exact List.getElem_zipWith

theorem shown_eq_self {id : NodeId} (hid : id ∈ D.furnished.ids)
    (hout : id ∉ (subtreesAll D.container.children).map label) : D.shown id = [id] := by
  have hswap : D.swap id = id := by
    by_contra hne
    obtain ⟨n, hn, rfl, -⟩ := D.exists_of_swap_ne h hs hne
    exact hout (D.below_of_mem_mathAmong hn)
  rw [(D.rendering.other id hid fun hmem => hout (D.below_of_mem_blocks hmem)).1]
  exact congrArg (fun v : NodeId => [v]) hswap

/-! ### Typeset forms -/

theorem kids_added {t : Node} (ht : t ∈ subtreesAll D.added) :
    s'.document.kids t.label = D.furnished.kids t.label := by
  have hsame : ∀ c ∈ subtreesAll D.added,
      c.label ∈ D.furnished.ids ∧ D.shown c.label = [c.label] := fun c hc => by
    have hin : c.label ∈ D.furnished.ids :=
      D.furnishes.ids ▸ List.mem_append_right _ (List.mem_map_of_mem hc)
    refine ⟨hin, D.shown_eq_self h hs hin fun hbelow => ?_⟩
    have hnodup := D.furnishes.wellFormed.distinct
    rw [D.furnishes.nodes, List.map_append, List.nodup_append] at hnodup
    exact hnodup.2.2 _ (D.mem_ids_of_below hbelow) _ (List.mem_map_of_mem hc) rfl
  have hmem : t ∈ D.furnished.nodes := D.furnishes.nodes ▸ List.mem_append_right _ ht
  rw [D.rendering.kids _ (hsame t ht).1, D.furnishes.wellFormed.kids_label hmem, List.flatMap_map,
    List.flatMap_congr fun c hc => (hsame c (mem_subtreesAll_children hc ht)).2,
    ← List.map_eq_flatMap]

include D in
/-- A typeset form is in the document as it was made. -/
theorem exists_form {item : Item} (hitem : item ∈ s'.items) :
    ∃ root n, item.root = some root ∧ item.content = some n.label ∧
      s'.document.find? n.label = some n ∧ n.fragment = Item.typesetForm item.source root := by
  obtain ⟨root, hroot, t, ht, hcontent, hform⟩ := D.forms item hitem
  have hmem := D.furnishes.mem_nodes ht
  have hwf := D.furnishes.wellFormed
  have hwf' := D.rendering.wellFormed
  obtain ⟨n, hn⟩ := exists_of_mem_ids (D.rendering.ids _ (List.mem_map_of_mem hmem))
  obtain ⟨hn', hlabel⟩ := mem_of_find? hn
  refine ⟨root, n, hroot, hlabel ▸ hcontent, hlabel ▸ hn, Eq.trans ?_ hform⟩
  symm
  refine fragment_eq_of_related hwf hwf'
    (R := fun a b => a = b ∧ a ∈ (subtreesAll D.added).map label) (fun a b hab => ?_)
    (fun a b hab => ?_) hmem hn' ⟨hlabel.symm, List.mem_map_of_mem (mem_subtreesAll_of_mem ht)⟩
  · obtain ⟨rfl, hin⟩ := hab
    exact (D.rendering.shell a (D.furnishes.ids ▸ List.mem_append_right _ hin)).symm
  · obtain ⟨rfl, hin⟩ := hab
    obtain ⟨u, hu, rfl⟩ := List.mem_map.1 hin
    have hu' : u ∈ D.furnished.nodes := D.furnishes.nodes ▸ List.mem_append_right _ hu
    rw [D.kids_added h hs hu, hwf.kids_label hu']
    refine List.forall₂_same.2 fun c hc => ⟨rfl, ?_⟩
    obtain ⟨v, hv, rfl⟩ := List.mem_map.1 hc
    exact List.mem_map_of_mem (mem_subtreesAll_children hv hu)

/-! ### Running content -/

theorem isBodiless_of_inserted {f : Find} {root : NodeId}
    (hitem : f.inserted s.document D.container D.blocks root ∈ s'.items)
    (hf : ∀ m display n, f = .element m display → s.document.find? m = some n → n.IsBodiless)
    {n : Node} (hn : s'.document.find? root = some n) : n.IsBodiless := by
  obtain ⟨formula, n', hformula, hcontent, hn', hform⟩ := D.exists_form h hs hitem
  obtain rfl : root = n'.label := Option.some.inj hcontent
  obtain rfl : n' = n := Option.some.inj (hn'.symm.trans hn)
  rw [← isBodiless_fragment, hform]
  exact isBodiless_typesetForm (Find.isBodiless_formula hformula hf) _

include D in
/-- The running content of the document is where it was. -/
theorem body_eq (hplain : s.document.IsPlain) : s'.document.body = s.document.body := by
  refine Varied.body_eq (?_ : s.document.Varied s'.document D.shown) h D.rendering.wellFormed
  refine {
    root := D.rendering.root.trans (by rw [D.furnishes.root])
    kids := fun p hp => D.kids hp
    shell := fun id hid => D.shell hid
    outside := fun id hid hout => D.shown_eq_self h hs (D.furnishes.mem_ids hid) fun hbelow => ?_
    new := fun n hn hnone v hv hne n' hn' => ?_ }
  · rw [Bool.eq_false_iff] at hout
    exact hout (isBelow_iff.2 ⟨D.container, D.mem_nodes,
      decide_eq_true (mem_of_find? D.body).2, hbelow⟩)
  -- what is new in the place of a node is a part of its text, or a typeset form
  · have hid : n.label ∈ s.document.ids := List.mem_map_of_mem hn
    rcases D.shown_cases h hplain hid hv with rfl | ⟨u, hu, hnode, htext⟩ | ⟨-, rfl⟩
    · exact absurd rfl hne
    · rw [← hnode] at hv
      have htext' : D.furnished.text? u.piece.node = some u.piece.text := by
        rwa [D.furnishes.text? (hnode ▸ hid)]
      rcases D.rendering.mem_shown_cases hu htext' hv with ⟨t, ht⟩ | ⟨-, x, hx, rfl⟩
      · rw [find?_of_text? ht, Option.some.injEq] at hn'
        exact hn' ▸ isBodiless_string
      · obtain ⟨X, t, -, -, rfl, -, hitem⟩ := D.exists_of_mem_cuts hs hx
        exact D.isBodiless_of_inserted h hs hitem (fun m display n heq => by cases heq) hn'
    · obtain ⟨_, -, -, t, -, hswap, hitem⟩ := D.exists_of_swap_ne h hs hne
      rw [hswap] at hn'
      refine D.isBodiless_of_inserted h hs hitem (fun m display n'' heq hn'' => ?_) hn'
      cases heq
      rw [h.find?_label hn, Option.some.injEq] at hn''
      exact hn'' ▸ hnone

end

end Session.Rendered

/-! ### What a search notes of a rendered document -/

/-- The session has put typeset mathematics in place of an element. -/
def Session.replaces (s : Session) (m : NodeId) : Bool :=
  s.items.any fun item => item.math = .node m && item.stage = .inserted

theorem Session.replaces_of_inserted {s : Session} {doc : Document} {container : Node}
    {blocks : List Block} {m root : NodeId} {display : Bool}
    (hitem : (Find.element m display).inserted doc container blocks root ∈ s.items) :
    s.replaces m = true :=
  List.any_eq_true.2 ⟨_, hitem, Bool.and_eq_true_iff.2 ⟨decide_eq_true rfl, decide_eq_true rfl⟩⟩

/-- A search goes past typeset mathematics as past any element, and sees nothing in it. -/
theorem Tree.IsTypeset.signs_eq {n : Node} (h : n.IsTypeset) (w : Watch) :
    signs (marksIn hideNone w n) = if w.reads then [.stop, .stop] else [] := by
  obtain ⟨label, attributes, children, rfl, hmark⟩ := h
  have hpiece := piece?_of_kind_eq (n := .element label "math" attributes children) rfl
  have hown : w.own (.element label "math" attributes children) = [] := by
    rw [Watch.own, Option.isNone_eq_false_iff.2 hmark]
    simp
  have hinside : marksAmong hideNone (w.inside (.element label "math" attributes children))
      children = [] := by
    refine marksAmong_eq_nil children ?_ (by simp [Watch.inside])
    rw [Watch.inside, Extraction.enters, Option.isNone_eq_false_iff.2 hmark]
    simp
  rw [marksIn_hideNone, hown, Watch.before, Watch.after, hpiece, Tree.children, hinside]
  cases w.reads <;> rfl

theorem Tree.IsTypeset.of_shell {s t : Node} (h : t.IsTypeset) (hshell : s.shell = t.shell) :
    s.IsTypeset := by
  obtain ⟨label, attributes, children, rfl, hmark⟩ := h
  cases s with
  | string => cases hshell
  | element label' tag attributes' children' =>
    obtain ⟨-, rfl, rfl, -⟩ := Tree.element.inj hshell
    exact ⟨label', attributes', children', rfl, hmark⟩

namespace Session.Rendered

variable {s s' : Session} (D : s.Rendered s')

/-- A place in which a search of the rendered document finds nothing: an element that has given
way, and what was strictly inside a source. -/
def hidden (id : NodeId) : Bool := s'.replaces id || s.document.isEnclosed D.blocks D.read id

theorem signsAt_added {t : Node} (ht : t ∈ D.added) (w : Watch) :
    s'.document.signsAt w t.label = if w.reads then [.stop, .stop] else [] := by
  have hid : t.label ∈ D.furnished.ids := List.mem_map_of_mem (D.furnishes.mem_nodes ht)
  obtain ⟨n, hn⟩ := exists_of_mem_ids (D.rendering.ids _ hid)
  have hshell := D.rendering.shell _ hid
  rw [D.furnishes.wellFormed.shell?_label (D.furnishes.mem_nodes ht), shell?, hn, Option.map_some,
    Option.some.injEq] at hshell
  rw [signsAt, hn, Option.map_some, Option.getD_some]
  exact ((D.furnishes.typeset t ht).of_shell hshell).signs_eq w

section

variable (h : s.document.WellFormed) (hs : Source.AreUsual s.sources)

include h hs

theorem replaces_iff {m : NodeId} : s'.replaces m = true ↔ D.swap m ≠ m := by
  constructor
  · intro hreplaced
    obtain ⟨item, hitem, hmath⟩ := List.any_eq_true.1 hreplaced
    obtain ⟨f, hf, t, ht, htarget, rfl⟩ := D.exists_of_mem_items hitem
    rw [Bool.and_eq_true, decide_eq_true_iff] at hmath
    rcases mem_findsOf hs (D.survey.perm.mem_iff.1 hf) with ⟨x, -, rfl⟩ | ⟨n, hn, rfl⟩
    · cases hmath.1
    · obtain rfl : n.label = m := Subject.node.inj hmath.1
      have hswap : D.swap n.label = t.label :=
        Target.swap_of_mem (D.pairwise_targets h hs) htarget
      rw [hswap]
      intro heq
      exact D.furnishes.not_mem_ids ht (heq ▸ D.mem_ids_of_below (D.below_of_mem_mathAmong hn))
  · intro hne
    obtain ⟨_, -, -, t, -, -, hitem⟩ := D.exists_of_swap_ne h hs hne
    exact replaces_of_inserted hitem

theorem replaces_eq_false {id : NodeId} (hid : id ∈ D.blocks.flatten.map Piece.node) :
    s'.replaces id = false := by
  refine Bool.eq_false_iff.2 fun hreplaced => ?_
  obtain ⟨n, hn, rfl, -⟩ := D.exists_of_swap_ne h hs ((D.replaces_iff h hs).1 hreplaced)
  exact (isElement_of_mem_mathAmong h D.mem_nodes hn).outside (D.blocks_eq ▸ hid)

/-- The typeset form of an element that was replaced is noted as the element was, hidden. -/
theorem signsAt_replaced {n : Node} (hn : n ∈ s.document.nodes)
    (hreplaced : s'.replaces n.label = true) (w : Watch) (tell : Piece → List Sign) :
    s'.document.signsAt w (D.swap n.label) =
      (marksIn D.hidden w n).flatMap (Mark.retell tell) := by
  obtain ⟨m, hm, hlabel, t, ht, hswap, -⟩ :=
    D.exists_of_swap_ne h hs ((D.replaces_iff h hs).1 hreplaced)
  have hbelow := (Source.mathAmong_sublist _).subset hm
  obtain rfl : m = n :=
    eq_of_label_eq h.distinct (mem_subtreesAll_of_below hbelow D.mem_nodes) hn hlabel
  have hhide : D.hidden m.label = true := by rw [hidden, hreplaced, Bool.true_or]
  rw [hswap, D.signsAt_added ht, marksIn_eq, if_pos hhide, if_pos hhide, Watch.before, Watch.after,
    piece?_of_mem_mathAmong hm]
  cases w.reads <;> rfl

/-- What a search notes of the rendered document. -/
theorem retold_rendered (hplain : s.document.IsPlain) :
    s.document.Retold s'.document D.hidden (D.blocks.flatten.map Piece.node) D.shown
      (tellOf D.blocks D.cuts Symbol.broken) := by
  -- a text of a block, a line break or comment of a block, and a node of no block
  refine D.retold h hplain hs (fun _ => rfl) (fun p hp => D.kids hp) (fun id hid => D.shell hid)
    (fun u hu htext w hr hi => ?_) (fun u hu hmute => ?_) fun n hn hnot => ?_
  · rw [List.flatMap_assoc]
    refine List.flatMap_congr fun v hv => ?_
    have htext' : D.furnished.text? u.piece.node = some u.piece.text := by
      rwa [D.furnishes.text? (mem_ids_of_text? htext)]
    rcases D.rendering.mem_shown_cases hu htext' hv with ⟨t, ht⟩ | ⟨hnone, x, hx, rfl⟩
    · rw [signsAt_text ht hr hi, symbols_of_text? ht, flatMap_broken_map_char]
    · obtain ⟨X, t, -, ht, rfl, -⟩ := D.exists_of_mem_cuts hs hx
      rw [symbols_of_text?_eq_none hnone, List.flatMap_singleton]
      exact (D.signsAt_added ht w).trans (if_pos hr)
  · have hid : u.piece.node ∈ D.blocks.flatten.map Piece.node :=
      occurrences_map_node D.blocks ▸ List.mem_map_of_mem hu
    rw [hidden, D.replaces_eq_false h hs hid, Bool.false_or,
      Revived.isEnclosed_iff h hplain hs hu hmute]
    exact ⟨D.mute h hplain hu hmute, rfl⟩
  · rw [D.other (List.mem_map_of_mem hn) hnot]
    cases hreplaced : s'.replaces n.label with
    | false =>
      have hswap : D.swap n.label = n.label := by
        by_contra hne
        rw [(D.replaces_iff h hs).2 hne] at hreplaced
        cases hreplaced
      rw [hswap]
      exact .inl ⟨rfl, by rw [hidden, hreplaced, Revived.isEnclosed_eq_false hnot]; rfl⟩
    | true =>
      refine .inr fun w tell _ => ?_
      rw [List.flatMap_singleton]
      exact D.signsAt_replaced h hs hn hreplaced w tell

/-- A search of the rendered document notes what it noted before, apart from what is hidden, with a
break in place of every source. -/
theorem signs_rendered (hplain : s.document.IsPlain) {container : Node}
    (hc : s'.document.find? D.container.label = some container) (seeks : Bool) :
    signs (marksAmong hideNone ⟨true, false, seeks⟩ container.children) =
      (marksAmong D.hidden ⟨true, false, seeks⟩ D.container.children).flatMap
        (Mark.retell (tellOf D.blocks D.cuts Symbol.broken)) := by
  obtain ⟨hmem, hlabel⟩ := mem_of_find? hc
  have hwf := D.rendering.wellFormed
  rw [← hwf.flatMap_signsAt hmem, hlabel]
  exact (D.retold_rendered h hs hplain).signs_eq h hwf hplain D.mem_nodes
    (D.blocks_eq ▸ areNoted_find D.container seeks)

end

end Session.Rendered

end Formulary
