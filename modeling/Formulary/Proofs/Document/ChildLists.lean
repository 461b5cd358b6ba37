import Formulary.Proofs.Document.Edits

/-! # Documents with one list of children rewritten

What an edit of a document means for one place `p` of it: the children of `p` are others, every
other list of children is as before, and places are added at most, which are without children
(`Document.Reshaped`).  Edits of the children of one place compose (`Reshaped.trans`).

The running text of a place (`Document.text?`) is what it is apart from its children, so it
stays with every edit.  New content beside a document leaves all of it as it is
(`Document.Extends`). -/

namespace Formulary

namespace Document

open Formulary.Tree

/-- The running text that a place is, if it is a string of running text. -/
def text? (doc : Document) (id : NodeId) : Option String :=
  match doc.shell? id with
  | some (.string _ .text value) => some value
  | _ => none

/-- The document `doc'` is `doc` with the places `children` as the children of `p`. -/
structure Reshaped (doc doc' : Document) (p : NodeId) (children : List NodeId) : Prop where
  wellFormed : doc'.WellFormed
  root : doc'.root.label = doc.root.label
  fresh : doc.fresh ≤ doc'.fresh
  ids : ∀ id ∈ doc.ids, id ∈ doc'.ids
  shell : ∀ id ∈ doc.ids, doc'.shell? id = doc.shell? id
  elsewhere : ∀ q ∈ doc.ids, q ≠ p → doc'.kids q = doc.kids q
  here : doc'.kids p = children
  added : ∀ id ∈ doc'.ids, id ∉ doc.ids → doc.fresh ≤ id ∧ doc'.kids id = []

section

variable {doc doc' doc'' : Document} {p : NodeId} {children children' : List NodeId}

theorem text?_eq_some {id : NodeId} {s : String} :
    doc.text? id = some s ↔ doc.shell? id = some (.string () .text s) := by
  rw [text?]
  split
  · rename_i u value hs
    rw [hs]
    simp
  · rename_i hs
    exact ⟨fun h => (by simp at h), fun h => absurd h (hs () s)⟩

theorem mem_ids_of_text? {id : NodeId} {s : String} (h : doc.text? id = some s) :
    id ∈ doc.ids := shell?_isSome_iff.1 (by rw [text?_eq_some.1 h]; rfl)

theorem find?_of_text? {id : NodeId} {s : String} (h : doc.text? id = some s) :
    doc.find? id = some (.string id .text s) := by
  obtain ⟨n, hn, hs⟩ := Option.map_eq_some_iff.1 (text?_eq_some.1 h)
  have hl := (mem_of_find? hn).2
  cases n with
  | string label kind value =>
    simp only [Tree.shell, Tree.string.injEq, true_and] at hs
    rw [hn, ← hl, hs.1, hs.2]
    rfl
  | element => simp [Tree.shell] at hs

theorem WellFormed.eq_string (h : doc.WellFormed) {n : Node} (hn : n ∈ doc.nodes) {s : String}
    (htext : doc.text? n.label = some s) : n = .string n.label .text s :=
  Option.some.inj ((h.find?_label hn).symm.trans (find?_of_text? htext))

theorem kids_of_text? {id : NodeId} {s : String} (h : doc.text? id = some s) : doc.kids id = [] := by
  rw [kids, find?_of_text? h]
  rfl

theorem Reshaped.refl (h : doc.WellFormed) : doc.Reshaped doc p (doc.kids p) where
  wellFormed := h
  root := rfl
  fresh := Nat.le_refl _
  ids := fun _ hid => hid
  shell := fun _ _ => rfl
  elsewhere := fun _ _ _ => rfl
  here := rfl
  added := fun _ hid hnot => absurd hid hnot

theorem Reshaped.trans (h : doc.Reshaped doc' p children)
    (h' : doc'.Reshaped doc'' p children') (hp : p ∈ doc.ids) :
    doc.Reshaped doc'' p children' where
  wellFormed := h'.wellFormed
  root := h'.root.trans h.root
  fresh := Nat.le_trans h.fresh h'.fresh
  ids := fun id hid => h'.ids id (h.ids id hid)
  shell := fun id hid => (h'.shell id (h.ids id hid)).trans (h.shell id hid)
  elsewhere := fun q hq hne => (h'.elsewhere q (h.ids q hq) hne).trans (h.elsewhere q hq hne)
  here := h'.here
  added := fun id hid hnot => by
    by_cases hmid : id ∈ doc'.ids
    · obtain ⟨hle, hkids⟩ := h.added id hmid hnot
      have hne : id ≠ p := fun hl => hnot (hl ▸ hp)
      exact ⟨hle, (h'.elsewhere id hmid hne).trans hkids⟩
    · obtain ⟨hle, hkids⟩ := h'.added id hid hmid
      exact ⟨Nat.le_trans h.fresh hle, hkids⟩

theorem Reshaped.text? (h : doc.Reshaped doc' p children) {id : NodeId} (hid : id ∈ doc.ids) :
    doc'.text? id = doc.text? id := by
  rw [Document.text?, Document.text?, h.shell id hid]

theorem Reshaped.text?_eq_some (h : doc.Reshaped doc' p children) {id : NodeId} {s : String}
    (hs : doc.text? id = some s) : doc'.text? id = some s := by
  rw [h.text? (mem_ids_of_text? hs), hs]

theorem Reshaped.mem_kids (h : doc.Reshaped doc' p children) {c q : NodeId}
    (hc : c ∈ doc'.kids q) : c ∈ children ∨ ∃ q', c ∈ doc.kids q' := by
  by_cases hqp : q = p
  · exact .inl (h.here ▸ hqp ▸ hc)
  · by_cases hmem : q ∈ doc.ids
    · exact .inr ⟨q, h.elsewhere q hmem hqp ▸ hc⟩
    · rw [(h.added q (mem_ids_of_mem_kids hc).2 hmem).2] at hc
      cases hc

theorem Reshaped.isLoose (h : doc.Reshaped doc' p children) (hdoc : doc.WellFormed)
    {id : NodeId} (hloose : doc.IsLoose id) (hnot : id ∉ children) :
    doc'.IsLoose id := by
  obtain ⟨hid, hroot, hkids⟩ := hdoc.isLoose_iff.1 hloose
  refine h.wellFormed.isLoose_iff.2 ⟨h.ids id hid, h.root ▸ hroot, fun q hq => ?_⟩
  exact (h.mem_kids hq).elim hnot fun ⟨q', hq'⟩ => hkids q' hq'

/-- Places that take the place of a child are children of its parent. -/
theorem Reshaped.of_revised (h : doc.WellFormed) {c : NodeId} {ids : List NodeId}
    {added : List Entry} (hc : c ∈ doc.kids p) (hrev : doc.Revised doc' (exchanged c ids) added)
    (hnodup : (added.map Entry.label).Nodup)
    (hadded : ∀ e ∈ added, doc.fresh ≤ e.label ∧ e.label < doc'.fresh ∧ e.children = []) :
    doc.Reshaped doc' p (exchanged c ids (doc.kids p)) := by
  have hwf := hrev.wellFormed h hnodup fun e he => ⟨(hadded e he).1, (hadded e he).2.1⟩
  refine ⟨hwf, hrev.root, hrev.fresh, fun id hid => hrev.mem_ids_iff.2 (.inl hid),
    fun id hid => hrev.shell? h hwf hid, fun q hq hne => ?_,
    hrev.kids h hwf (mem_ids_of_mem_kids hc).2, fun id hid hnot => ?_⟩
  · rw [hrev.kids h hwf hq, exchanged_of_not_mem ids fun hm => hne (h.parent_unique hm hc)]
  · obtain ⟨e, he, rfl⟩ := List.mem_map.1 ((hrev.mem_ids_iff.1 hid).resolve_left hnot)
    refine ⟨(hadded e he).1, ?_⟩
    rw [(hrev.added_entry hwf he).2, (hadded e he).2.2]

theorem Reshaped.of_revised_nil (h : doc.WellFormed) {c : NodeId} {ids : List NodeId}
    (hc : c ∈ doc.kids p) (hrev : doc.Revised doc' (exchanged c ids) []) :
    doc.Reshaped doc' p (exchanged c ids (doc.kids p)) :=
  .of_revised h hc hrev List.nodup_nil (by simp)

theorem Ranked.reshaped {rank : NodeId → Nat} (hrank : doc.Ranked rank)
    (h : doc.Reshaped doc' p children) (hchildren : ∀ c ∈ children, rank p < rank c) :
    doc'.Ranked rank := by
  intro q c hc
  by_cases hqp : q = p
  · exact hqp ▸ hchildren c (h.here ▸ hqp ▸ hc)
  · by_cases hmem : q ∈ doc.ids
    · exact hrank q c (h.elsewhere q hmem hqp ▸ hc)
    · rw [(h.added q (mem_ids_of_mem_kids hc).2 hmem).2] at hc
      cases hc

/-- The place `p` is not in the tree of the place `id`. -/
def Apart (doc : Document) (p id : NodeId) : Prop := ∀ n, doc.find? id = some n → n.find? p = none

theorem apart_of_mem_kids (h : doc.WellFormed) {c : NodeId} (hc : c ∈ doc.kids p) :
    doc.Apart p c := by
  intro n hn
  obtain ⟨hmem, rfl⟩ := mem_of_find? hn
  rw [Tree.find?, List.find?_eq_none]
  intro q hq hl
  rw [← of_decide_eq_true hl, h.kids_label (subtreesAll_trans hq hmem)] at hc
  obtain ⟨child, hchild, hlabel⟩ := List.mem_map.1 hc
  have hbelow : child ∈ subtreesAll n.children := by
    rw [subtrees_eq, List.mem_cons] at hq
    rcases hq with rfl | hq
    · exact mem_subtreesAll_of_mem hchild
    · exact mem_subtreesAll_children hchild hq
  have hnodup := nodup_below h.distinct hmem
  rw [labels, subtrees_eq, List.map_cons, List.nodup_cons] at hnodup
  exact hnodup.1 (hlabel ▸ List.mem_map_of_mem hbelow)

/-- A tree whose places and their children are as they were is as it was. -/
theorem find?_eq_of_forall (hdoc : doc.WellFormed) (hdoc' : doc'.WellFormed) {n : Node}
    (hn : n ∈ doc.nodes) (h : ∀ s ∈ n.subtrees,
      doc'.shell? s.label = doc.shell? s.label ∧ doc'.kids s.label = doc.kids s.label) :
    doc'.find? n.label = some n := by
  refine hdoc'.find?_label (mem_subtreesAll_of_entries hdoc'.distinct fun e he => ?_)
  obtain ⟨s, hs, rfl⟩ := List.mem_map.1 he
  rw [subtreesAll, subtreesAll, List.append_nil] at hs
  obtain ⟨hshell, hkids⟩ := h s hs
  have hmem : s.entry ∈ doc.entries := List.mem_map_of_mem (subtreesAll_trans hs hn)
  obtain ⟨hshell₀, hkids₀⟩ := hdoc.mem_entries_iff.1 hmem
  exact hdoc'.mem_entries_iff.2 ⟨hshell.trans hshell₀, hkids.trans hkids₀⟩

theorem Reshaped.find? (h : doc.Reshaped doc' p children) (hdoc : doc.WellFormed) {id : NodeId}
    (hid : id ∈ doc.ids) (hp : doc.Apart p id) : doc'.find? id = doc.find? id := by
  obtain ⟨n, hn⟩ := exists_of_mem_ids hid
  obtain ⟨hmem, rfl⟩ := mem_of_find? hn
  rw [hn]
  refine find?_eq_of_forall hdoc h.wellFormed hmem fun s hs => ?_
  have hs' : s.label ∈ doc.ids := List.mem_map_of_mem (subtreesAll_trans hs hmem)
  refine ⟨h.shell _ hs', h.elsewhere _ hs' fun heq => ?_⟩
  exact List.find?_eq_none.1 (hp n hn) s hs (decide_eq_true heq)

theorem Apart.reshaped {id : NodeId} (hp : doc.Apart p id) (hdoc : doc.WellFormed)
    (hid : id ∈ doc.ids) (h : doc.Reshaped doc' p children) : doc'.Apart p id := fun n hn =>
  hp n ((h.find? hdoc hid hp).symm.trans hn)

/-- The document `doc'` is `doc` with the places `children` as the children of `p`, which were
children of it before or are new. -/
structure Trimmed (doc doc' : Document) (p : NodeId) (children : List NodeId) : Prop
    extends doc.Reshaped doc' p children where
  kept : ∀ c ∈ children, c ∈ doc.kids p ∨ doc.fresh ≤ c

theorem Trimmed.refl (h : doc.WellFormed) : doc.Trimmed doc p (doc.kids p) :=
  ⟨.refl h, fun _ hc => .inl hc⟩

theorem Trimmed.trans (h : doc.Trimmed doc' p children) (h' : doc'.Trimmed doc'' p children')
    (hp : p ∈ doc.ids) : doc.Trimmed doc'' p children' := by
  refine ⟨h.toReshaped.trans h'.toReshaped hp, fun c hc => ?_⟩
  rcases h'.kept c hc with hc | hc
  · exact h.kept c (h.here ▸ hc)
  · exact .inr (Nat.le_trans h.fresh hc)

theorem Trimmed.mem_kids (h : doc.Trimmed doc' p children) {c q : NodeId}
    (hc : c ∈ doc'.kids q) : (∃ q', c ∈ doc.kids q') ∨ doc.fresh ≤ c := by
  rcases h.toReshaped.mem_kids hc with hmem | hold
  · exact (h.kept c hmem).imp_left fun hkid => ⟨p, hkid⟩
  · exact .inl hold

theorem Trimmed.isLoose (h : doc.Trimmed doc' p children) (hdoc : doc.WellFormed) {id : NodeId}
    (hloose : doc.IsLoose id) : doc'.IsLoose id := by
  have hl := hdoc.isLoose_iff.1 hloose
  refine h.toReshaped.isLoose hdoc hloose fun hm => ?_
  rcases h.kept id hm with hm | hm
  · exact hl.2.2 p hm
  · exact hdoc.fresh_not_mem hm hl.1

/-! ### The children of one place -/

section

variable {before after : List NodeId} {c : NodeId}

theorem remove_trimmed (h : doc.WellFormed) (hkids : doc.kids p = before ++ c :: after) :
    ∃ doc', doc.remove c = .ok doc' ∧ doc.Trimmed doc' p (before ++ after) := by
  have hc : c ∈ doc.kids p := by simp [hkids]
  obtain ⟨doc', hremove, hrev⟩ := remove_revised h hc
  have hres := Reshaped.of_revised_nil h hc hrev
  rw [hkids, exchanged_append_cons [] (hkids ▸ h.nodup_kids p), List.append_nil] at hres
  refine ⟨doc', hremove, hres, fun d hd => .inl ?_⟩
  rw [hkids]
  rcases List.mem_append.1 hd with hd | hd
  · exact List.mem_append_left _ hd
  · exact List.mem_append_right _ (List.mem_cons_of_mem _ hd)

/-- A loose place takes the place of a child. -/
theorem replace_reshaped (h : doc.WellFormed) (hkids : doc.kids p = before ++ c :: after)
    {new : NodeId} (hnew : doc.IsLoose new) (hp : doc.Apart p new) :
    ∃ doc', doc.replace new c = { document := doc' } ∧
      doc.Reshaped doc' p (before ++ new :: after) := by
  have hc : c ∈ doc.kids p := by simp [hkids]
  obtain ⟨doc', hreplace, hrev⟩ := replace_revised h hnew hc hp
  have hres := Reshaped.of_revised_nil h hc hrev
  rw [hkids, exchanged_append_cons [new] (hkids ▸ h.nodup_kids p), List.append_assoc,
    List.singleton_append] at hres
  exact ⟨doc', hreplace, hres⟩

/-- A loose place comes to stand before a child. -/
theorem insert_reshaped (h : doc.WellFormed) (hkids : doc.kids p = before ++ c :: after)
    {id : NodeId} (hid : doc.IsLoose id) (hp : doc.Apart p id) :
    ∃ doc', doc.insert id c = { document := doc' } ∧
      doc.Reshaped doc' p (before ++ id :: c :: after) := by
  have hc : c ∈ doc.kids p := by simp [hkids]
  obtain ⟨doc', hinsert, hrev⟩ := insert_revised h hid hc hp
  have hres := Reshaped.of_revised_nil h hc hrev
  rw [hkids, exchanged_append_cons [id, c] (hkids ▸ h.nodup_kids p), List.append_assoc] at hres
  exact ⟨doc', hinsert, hres⟩

/-- A child is cut into two strings of running text. -/
theorem split_trimmed (h : doc.WellFormed) (hkids : doc.kids p = before ++ c :: after)
    {node : Node} (hnode : doc.find? c = some node) (n : Nat) :
    ∃ doc', doc.split c n = .ok (doc.fresh, doc.fresh + 1, doc') ∧
      doc.Trimmed doc' p (before ++ doc.fresh :: (doc.fresh + 1) :: after) ∧
      doc'.text? doc.fresh = some (String.ofList (node.value.toList.take n)) ∧
      doc'.text? (doc.fresh + 1) = some (String.ofList (node.value.toList.drop n)) := by
  have hc : c ∈ doc.kids p := by simp [hkids]
  obtain ⟨doc', hsplit, hrev, hfresh⟩ := split_revised h hc hnode n
  have hnodup : [doc.fresh, doc.fresh + 1].Nodup := by simp
  have hres := Reshaped.of_revised h hc hrev hnodup (by simp [hfresh])
  rw [hkids, exchanged_append_cons _ (hkids ▸ h.nodup_kids p), List.append_assoc] at hres
  generalize node.value = s at hrev
  have hcut : Text.cut s n =
      (String.ofList (s.toList.take n), String.ofList (s.toList.drop n)) := by
    have hlen : s.length = s.toList.length := rfl
    rw [Text.cut, Text.cutPoint_natCast, hlen]
    rcases Nat.le_total n s.toList.length with hn | hn
    · rw [Nat.min_eq_left hn]
    · rw [Nat.min_eq_right hn, List.take_of_length_le hn, List.drop_eq_nil_of_le hn,
        List.take_length, List.drop_length]
  refine ⟨doc', hsplit, ⟨hres, fun d hd => ?_⟩, ?_, ?_⟩
  · simp only [List.mem_append, List.mem_cons] at hd
    rw [hkids]
    rcases hd with hd | rfl | rfl | hd
    · exact .inl (List.mem_append_left _ hd)
    · exact .inr (Nat.le_refl _)
    · exact .inr (Nat.le_succ _)
    · exact .inl (List.mem_append_right _ (List.mem_cons_of_mem _ hd))
  · have := (hrev.added_entry hres.wellFormed (List.mem_cons_self ..)).1
    rw [text?_eq_some, this]
    simp [hcut]
  · have := (hrev.added_entry hres.wellFormed (List.mem_cons_of_mem _ (List.mem_cons_self ..))).1
    rw [text?_eq_some, this]
    simp [hcut]

end

end

/-! ### Documents with more beside them -/

/-- The document `doc'` is `doc` with more beside it. -/
structure Extends (doc doc' : Document) : Prop where
  wellFormed : doc'.WellFormed
  root : doc'.root = doc.root
  detached : doc.detached <+: doc'.detached
  fresh : doc.fresh ≤ doc'.fresh

namespace Extends

variable {doc doc' doc'' : Document} {id p : NodeId}

theorem refl (h : doc.WellFormed) : doc.Extends doc := ⟨h, rfl, List.prefix_rfl, Nat.le_refl _⟩

theorem trans (h : doc.Extends doc') (h' : doc'.Extends doc'') : doc.Extends doc'' :=
  ⟨h'.wellFormed, h'.root.trans h.root, h.detached.trans h'.detached, Nat.le_trans h.fresh h'.fresh⟩

theorem nodes (h : doc.Extends doc') : doc.nodes <+: doc'.nodes := by
  obtain ⟨added, hadded⟩ := h.detached
  rw [Document.nodes, Document.nodes, trees, trees, h.root, ← hadded, ← List.cons_append,
    subtreesAll_append]
  exact List.prefix_append ..

theorem mem_ids (h : doc.Extends doc') (hid : id ∈ doc.ids) : id ∈ doc'.ids :=
  (h.nodes.map Tree.label).subset hid

theorem find? (h : doc.Extends doc') (hid : id ∈ doc.ids) : doc'.find? id = doc.find? id := by
  obtain ⟨n, hn⟩ := exists_of_mem_ids hid
  obtain ⟨hmem, rfl⟩ := mem_of_find? hn
  rw [hn, h.wellFormed.find?_label (h.nodes.subset hmem)]

theorem kids (h : doc.Extends doc') (hid : id ∈ doc.ids) : doc'.kids id = doc.kids id := by
  rw [Document.kids, h.find? hid]
  rfl

theorem shell? (h : doc.Extends doc') (hid : id ∈ doc.ids) : doc'.shell? id = doc.shell? id := by
  rw [Document.shell?, h.find? hid]
  rfl

theorem text? (h : doc.Extends doc') (hid : id ∈ doc.ids) : doc'.text? id = doc.text? id := by
  rw [Document.text?, Document.text?, h.shell? hid]

theorem isLoose (h : doc.Extends doc') (hid : doc.IsLoose id) : doc'.IsLoose id :=
  (h.detached.map Tree.label).subset hid

end Extends

theorem create_extends {doc : Document} (h : doc.WellFormed) (content : Fragment) :
    doc.Extends (doc.create content).2 ∧ ∃ t, (doc.create content).1 = t.label ∧
      t.fragment = content ∧ (doc.create content).2.IsLoose t.label ∧
      (doc.create content).2.find? t.label = some t ∧ ∀ s ∈ t.subtrees, doc.fresh ≤ s.label := by
  obtain ⟨-, hrev, hwf⟩ := create_revised h content
  obtain ⟨k, -, hl⟩ := Fragment.plant_labels content doc.fresh
  refine ⟨⟨hwf, rfl, List.prefix_append .., hrev.fresh⟩, (content.plant doc.fresh).1, rfl,
    Fragment.fragment_plant _ _, List.mem_map_of_mem (List.mem_append_right _ (by simp)), ?_,
    fun s hs => ?_⟩
  · refine hwf.find?_label (mem_subtreesAll_of_mem (List.mem_cons_of_mem _ ?_))
    exact List.mem_append_right _ (List.mem_singleton_self _)
  · have hmem : s.label ∈ List.range' doc.fresh k := hl ▸ List.mem_map_of_mem hs
    exact (List.mem_range'_1.1 hmem).1

end Document

end Formulary
