import Formulary.Proofs.Session.Compilation

/-! # Typeset forms beside a document

Typesetting puts the typeset forms of items beside the document and leaves the document as it is
(`Document.Furnished`, `typesetAll_furnished`).  Blocks stay laid out, and what is typeset can be
put among the children of every place that was there before (`Furnished.beneath`). -/

namespace Formulary

open Formulary.Tree Document

/-- Typeset mathematics: a `math` element with the mark of its source. -/
def Tree.IsTypeset {α : Type} (t : Tree α) : Prop :=
  ∃ label attributes children, t = .element label "math" attributes children ∧
    (attributes.get? Formula.typesetMark).isSome = true

/-- The document `doc'` is `doc` with the trees `added` beside it, which are typeset
mathematics. -/
structure Document.Furnished (doc doc' : Document) (added : List Node) : Prop where
  wellFormed : doc'.WellFormed
  root : doc'.root = doc.root
  detached : doc'.detached = doc.detached ++ added
  fresh : doc.fresh ≤ doc'.fresh
  typeset : ∀ t ∈ added, t.IsTypeset

/-- The content of an item is one of the trees `added`, which shows the formula of the item. -/
def Item.IsShownBy (added : List Node) (item : Item) : Prop :=
  ∃ root, item.root = some root ∧
    ∃ t ∈ added, item.content = some t.label ∧ t.fragment = typesetForm item.source root

theorem Item.IsShownBy.mono {added added' : List Node} {item : Item} (h : item.IsShownBy added)
    (hsub : added ⊆ added') : item.IsShownBy added' :=
  let ⟨root, hroot, t, ht, hcontent, hform⟩ := h
  ⟨root, hroot, t, hsub ht, hcontent, hform⟩

/-! ### Typesetting -/

theorem typesetForm_eq {source : Source} {root : Formula} (h : root.kind = .text "math") :
    (Item.typesetForm source root).IsTypeset := by
  obtain ⟨kind, children, attributes, text, texClass, inferred⟩ := root
  obtain rfl : kind = .text "math" := h
  have hkind : Value.text "math" ≠ Value.text "TeXAtom" := by decide
  rw [Item.typesetForm, Formula.fragment, Fragment.build, Item.marked, Formula.shownKind,
    if_neg hkind]
  exact ⟨_, _, _, rfl, by rw [Fields.get?_set_self]; rfl⟩

theorem plant_isTypeset {f : Fragment} (h : f.IsTypeset) (next : NodeId) :
    (f.plant next).1.IsTypeset := by
  obtain ⟨label, attributes, children, rfl, hmark⟩ := h
  rw [Fragment.plant_element]
  exact ⟨_, _, _, rfl, hmark⟩

namespace Document.Furnished

variable {doc doc' doc'' : Document} {added added' : List Node}

theorem refl (h : doc.WellFormed) : doc.Furnished doc [] :=
  ⟨h, rfl, (List.append_nil _).symm, Nat.le_refl _, by simp⟩

theorem trans (h : doc.Furnished doc' added) (h' : doc'.Furnished doc'' added') :
    doc.Furnished doc'' (added ++ added') where
  wellFormed := h'.wellFormed
  root := h'.root.trans h.root
  detached := by rw [h'.detached, h.detached, List.append_assoc]
  fresh := Nat.le_trans h.fresh h'.fresh
  typeset := fun t ht => (List.mem_append.1 ht).elim (h.typeset t) (h'.typeset t)

end Document.Furnished

theorem typeset_furnished {doc : Document} (h : doc.WellFormed) {item : Item}
    (hstage : item.stage = .compiled) {root : Formula} (hroot : item.root = some root)
    (hkind : root.kind = .text "math") :
    ∃ doc' t, item.typeset doc =
        .ok (doc', { item with content := some t.label, stage := .typeset }) ∧
      t.fragment = Item.typesetForm item.source root ∧ doc.Furnished doc' [t] := by
  have hrank : item.stage.rank < Stage.typeset.rank := by
    rw [hstage]
    decide
  obtain ⟨hlabel, hrev, hwf⟩ := create_revised h (Item.typesetForm item.source root)
  refine ⟨_, ((Item.typesetForm item.source root).plant doc.fresh).1, ?_,
    Fragment.fragment_plant _ _, hwf, rfl, rfl, hrev.fresh, fun t ht => ?_⟩
  · rw [Item.typeset, if_pos hrank, hroot]
    rfl
  · obtain rfl := List.mem_singleton.1 ht
    exact plant_isTypeset (typesetForm_eq hkind) _

/-- Typesetting succeeds for items that were read. -/
theorem typesetAll_furnished {doc : Document} (h : doc.WellFormed) {items : List Item}
    (hitems : ∀ item ∈ items, item.stage = .compiled ∧
      ∃ root, item.root = some root ∧ root.kind = .text "math") :
    ∃ doc' added, Session.typesetAll doc items = .ok (doc',
        List.zipWith (fun (item : Item) (t : Node) =>
          { item with content := some t.label, stage := .typeset }) items added) ∧
      added.length = items.length ∧ doc.Furnished doc' added ∧
      ∀ item ∈ List.zipWith (fun (item : Item) (t : Node) =>
        { item with content := some t.label, stage := .typeset }) items added,
        item.IsShownBy added := by
  induction items generalizing doc with
  | nil => exact ⟨doc, [], rfl, rfl, .refl h, fun item hitem => by cases hitem⟩
  | cons item rest ih =>
    obtain ⟨hstage, root, hroot, hkind⟩ := hitems item (List.mem_cons_self ..)
    obtain ⟨doc₁, t, htypeset, hform, hfurnished⟩ := typeset_furnished h hstage hroot hkind
    obtain ⟨doc₂, added, hrest, hlen, hfurnished', hshown⟩ :=
      ih hfurnished.wellFormed fun other ho => hitems other (List.mem_cons_of_mem _ ho)
    refine ⟨doc₂, t :: added, ?_, congrArg (· + 1) hlen, hfurnished.trans hfurnished', ?_⟩
    · simp only [Session.typesetAll, htypeset, hrest, bind, Except.bind]
      rfl
    · rw [List.zipWith_cons_cons]
      refine List.forall_mem_cons.2 ⟨⟨root, hroot, t, List.mem_cons_self .., rfl, hform⟩, ?_⟩
      exact fun other hother => (hshown other hother).mono (List.subset_cons_self t added)

/-! ### The document with typeset forms beside it -/

namespace Document.Furnished

variable {doc doc' : Document} {added : List Node} {id : NodeId}

theorem nodes (h : doc.Furnished doc' added) : doc'.nodes = doc.nodes ++ subtreesAll added := by
  rw [Document.nodes, trees, h.root, h.detached, ← List.cons_append, subtreesAll_append]
  rfl

theorem ids (h : doc.Furnished doc' added) :
    doc'.ids = doc.ids ++ (subtreesAll added).map label := by
  rw [Document.ids, h.nodes, List.map_append]
  rfl

theorem toExtends (h : doc.Furnished doc' added) : doc.Extends doc' :=
  ⟨h.wellFormed, h.root, h.detached ▸ List.prefix_append .., h.fresh⟩

theorem mem_ids (h : doc.Furnished doc' added) (hid : id ∈ doc.ids) : id ∈ doc'.ids :=
  h.toExtends.mem_ids hid

theorem kids (h : doc.Furnished doc' added) (hid : id ∈ doc.ids) : doc'.kids id = doc.kids id :=
  h.toExtends.kids hid

theorem shell? (h : doc.Furnished doc' added) (hid : id ∈ doc.ids) :
    doc'.shell? id = doc.shell? id := h.toExtends.shell? hid

theorem text? (h : doc.Furnished doc' added) (hid : id ∈ doc.ids) :
    doc'.text? id = doc.text? id := h.toExtends.text? hid

theorem layout (h : doc.Furnished doc' added) {blocks : List Block}
    (layout : Layout doc blocks) : Layout doc' blocks where
  host := fun b hb => by
    obtain ⟨p, before, after, hkids⟩ := layout.host b hb
    by_cases hp : p ∈ doc.ids
    · exact ⟨p, before, after, (h.kids hp).trans hkids⟩
    · -- a block without pieces is among the children of every place
      rw [kids_eq_nil hp] at hkids
      have hnil := List.append_eq_nil_iff.1 (List.append_eq_nil_iff.1 hkids.symm).1
      exact ⟨doc'.root.label, [], doc'.kids doc'.root.label, by simp [hnil.2]⟩
  distinct := layout.distinct
  said := fun c hc => by
    rcases layout.said c hc with htext | ⟨⟨f, hf, hmute⟩, hchars⟩
    · exact .inl ((h.text? (mem_ids_of_text? htext)).trans htext)
    · have hid : c.node ∈ doc.ids := shell?_isSome_iff.1 (by rw [hf]; rfl)
      exact .inr ⟨⟨f, (h.shell? hid).trans hf, hmute⟩, hchars⟩

theorem isLoose (h : doc.Furnished doc' added) {t : Node} (ht : t ∈ added) :
    doc'.IsLoose t.label := by
  rw [IsLoose, h.detached]
  exact List.mem_map_of_mem (List.mem_append_right _ ht)

theorem not_mem_ids (h : doc.Furnished doc' added) {t : Node} (ht : t ∈ added) :
    t.label ∉ doc.ids := fun hid => by
  have hnodup := h.wellFormed.distinct
  rw [h.nodes, List.map_append, List.nodup_append] at hnodup
  exact hnodup.2.2 _ hid _ (List.mem_map_of_mem (mem_subtreesAll_of_mem ht)) rfl

theorem nodup_added (h : doc.Furnished doc' added) : (added.map label).Nodup := by
  have hnodup := (List.nodup_append.1 h.wellFormed.nodup_tops).1
  rw [h.detached, List.map_append] at hnodup
  exact (List.nodup_append.1 (List.nodup_cons.1 hnodup).2).2.1

theorem mem_nodes (h : doc.Furnished doc' added) {t : Node} (ht : t ∈ added) : t ∈ doc'.nodes := by
  rw [h.nodes]
  exact List.mem_append_right _ (mem_subtreesAll_of_mem ht)

theorem text?_eq_none (h : doc.Furnished doc' added) {t : Node} (ht : t ∈ added) :
    doc'.text? t.label = none := by
  obtain ⟨l, attributes, children, heq, -⟩ := h.typeset t ht
  have hshell := h.wellFormed.shell?_label (h.mem_nodes ht)
  rw [Document.text?, hshell, heq]
  rfl

/-! ### Document order as a rank -/

end Document.Furnished

/-- The position of a place in document order. -/
def Document.position (doc : Document) (id : NodeId) : Nat := doc.ids.idxOf id

theorem Document.ranked_position {doc : Document} (h : doc.WellFormed) :
    doc.Ranked doc.position := by
  intro p c hc
  obtain ⟨n, hn⟩ := exists_of_mem_ids (mem_ids_of_mem_kids hc).2
  obtain ⟨hmem, rfl⟩ := mem_of_find? hn
  rw [h.kids_label hmem] at hc
  obtain ⟨t, ht, rfl⟩ := List.mem_map.1 hc
  have hpair := (pairwise_idxOf h.distinct).sublist ((sublist_subtreesAll hmem).map label)
  rw [subtrees_eq, List.map_cons] at hpair
  exact (List.pairwise_cons.1 hpair).1 _ (List.mem_map_of_mem (mem_subtreesAll_of_mem ht))

/-- What is typeset can be put among the children of every place of the document. -/
theorem Document.Furnished.beneath {doc doc' : Document} {added : List Node}
    (h : doc.Furnished doc' added) {p : NodeId} (hp : p ∈ doc.ids) {t : Node} (ht : t ∈ added) :
    Beneath doc' doc'.position p t.label := by
  have hlt : doc'.position p < doc.ids.length := by
    rw [position, h.ids, List.idxOf_append, if_pos hp]
    exact List.idxOf_lt_length_iff.2 hp
  constructor
  · refine Nat.lt_of_lt_of_le hlt ?_
    rw [position, h.ids, List.idxOf_append, if_neg (h.not_mem_ids ht)]
    exact Nat.le_add_left _ _
  · intro id hid
    rw [position, position, List.idxOf_eq_length (h.wellFormed.fresh_not_mem hid)]
    exact List.idxOf_lt_length_iff.2 (h.mem_ids hp)

end Formulary
