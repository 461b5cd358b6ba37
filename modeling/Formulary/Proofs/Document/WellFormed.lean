import Mathlib.Data.List.Forall2
import Mathlib.Data.List.Pairwise
import Formulary.Document.Edit
import Formulary.Proofs.Document.Trees

/-! # Documents without ambiguity

In a well-formed document every place has an identity of its own, and the identities from
`fresh` on are unused.  Such a document is described by two functions: what a place is
(`Document.shell?`) and which children it has (`Document.kids`).  A place that is no child and
does not hold the whole document is *loose*: it stands beside the document.

`Document.Revised` compares two documents by these functions: the second one has new
places, and in every list of children of the first the same edit is made. -/

namespace Formulary

/-! ### Lists side by side -/

theorem forall₂_imp_mem {α β : Type} {R S : α → β → Prop} {l : List α} {m : List β}
    (h : List.Forall₂ R l m) (himp : ∀ a ∈ l, ∀ b ∈ m, R a b → S a b) : List.Forall₂ S l m := by
  induction h with
  | nil => exact .nil
  | cons hab _ ih =>
    refine .cons (himp _ (List.mem_cons_self ..) _ (List.mem_cons_self ..) hab)
      (ih fun a ha b hb => himp a (List.mem_cons_of_mem _ ha) b (List.mem_cons_of_mem _ hb))

theorem forall₂_and {α β : Type} {R S : α → β → Prop} {l : List α} {m : List β}
    (h : List.Forall₂ R l m) (h' : List.Forall₂ S l m) :
    List.Forall₂ (fun a b => R a b ∧ S a b) l m := by
  induction h with
  | nil => exact .nil
  | cons hab _ ih =>
    obtain ⟨hab', hrest⟩ := List.forall₂_cons.1 h'
    exact .cons ⟨hab, hab'⟩ (ih hrest)

theorem forall₂_through {α β γ : Type} {R : α → β → Prop} {S : α → γ → Prop} {l : List α}
    {m : List β} {n : List γ} (h : List.Forall₂ R l m) (h' : List.Forall₂ S l n) :
    List.Forall₂ (fun b c => ∃ a, R a b ∧ S a c) m n := by
  induction h generalizing n with
  | nil =>
    cases h'
    exact .nil
  | cons hab _ ih =>
    obtain ⟨c, n, hac, hrest, rfl⟩ := List.forall₂_cons_left_iff.1 h'
    exact .cons ⟨_, hab, hac⟩ (ih hrest)

theorem exists_right {α β : Type} {R : α → β → Prop} {l : List α} {m : List β}
    (h : List.Forall₂ R l m) {a : α} (ha : a ∈ l) : ∃ b ∈ m, R a b := by
  induction h with
  | nil => cases ha
  | cons hab _ ih =>
    rcases List.mem_cons.1 ha with rfl | ha
    · exact ⟨_, List.mem_cons_self .., hab⟩
    · obtain ⟨b, hb, hR⟩ := ih ha
      exact ⟨b, List.mem_cons_of_mem _ hb, hR⟩

theorem exists_left {α β : Type} {R : α → β → Prop} {l : List α} {m : List β}
    (h : List.Forall₂ R l m) {b : β} (hb : b ∈ m) : ∃ a ∈ l, R a b :=
  exists_right h.flip hb

theorem exists_getElem? {α β : Type} {R : α → β → Prop} {l : List α} {m : List β}
    (h : List.Forall₂ R l m) {i : Nat} {a : α} (ha : l[i]? = some a) :
    ∃ b, m[i]? = some b ∧ R a b := by
  induction h generalizing i with
  | nil => cases ha
  | cons hab _ ih =>
    cases i with
    | zero => exact ⟨_, rfl, Option.some.inj ha ▸ hab⟩
    | succ i => exact ih ha

namespace Document

open Formulary.Tree

/-- Every place has an identity of its own, and what is to come has unused ones. -/
structure WellFormed (doc : Document) : Prop where
  distinct : (doc.nodes.map Tree.label).Nodup
  fresh : ∀ n ∈ doc.nodes, n.label < doc.fresh

/-- The identities of all places. -/
def ids (doc : Document) : List NodeId := doc.nodes.map Tree.label

/-- The entries of all places. -/
def entries (doc : Document) : List Entry := Tree.entries doc.trees

/-- The identities of the children of a place. -/
def kids (doc : Document) (id : NodeId) : List NodeId :=
  ((doc.find? id).map fun n => n.children.map Tree.label).getD []

/-- What a place is, apart from its children. -/
def shell? (doc : Document) (id : NodeId) : Option Fragment := (doc.find? id).map Tree.shell

/-- A place stands beside the document as a tree of its own. -/
def IsLoose (doc : Document) (id : NodeId) : Prop := id ∈ doc.detached.map Tree.label

section

variable {doc : Document}

theorem mem_of_find? {id : NodeId} {n : Node} (h : doc.find? id = some n) :
    n ∈ doc.nodes ∧ n.label = id :=
  ⟨List.mem_of_find?_eq_some h, by simpa using List.find?_some h⟩

theorem find?_isSome_iff {id : NodeId} : (doc.find? id).isSome ↔ id ∈ doc.ids := by
  simp [find?, ids]

theorem exists_of_mem_ids {id : NodeId} (h : id ∈ doc.ids) : ∃ n, doc.find? id = some n :=
  Option.isSome_iff_exists.1 (find?_isSome_iff.2 h)

theorem WellFormed.find?_label (h : doc.WellFormed) {n : Node} (hn : n ∈ doc.nodes) :
    doc.find? n.label = some n := by
  obtain ⟨m, hm⟩ := exists_of_mem_ids (List.mem_map_of_mem hn : n.label ∈ doc.ids)
  obtain ⟨hmem, hl⟩ := mem_of_find? hm
  rw [hm, eq_of_label_eq h.distinct hmem hn hl]

theorem WellFormed.kids_label (h : doc.WellFormed) {n : Node} (hn : n ∈ doc.nodes) :
    doc.kids n.label = n.children.map Tree.label := by
  rw [kids, h.find?_label hn]
  rfl

theorem WellFormed.shell?_label (h : doc.WellFormed) {n : Node} (hn : n ∈ doc.nodes) :
    doc.shell? n.label = some n.shell := by
  rw [shell?, h.find?_label hn]
  rfl

theorem WellFormed.mem_entries_iff (h : doc.WellFormed) {e : Entry} :
    e ∈ doc.entries ↔ doc.shell? e.label = some e.shell ∧ doc.kids e.label = e.children := by
  constructor
  · intro he
    obtain ⟨n, hn, rfl⟩ := List.mem_map.1 he
    exact ⟨h.shell?_label hn, h.kids_label hn⟩
  · rintro ⟨hshell, hkids⟩
    obtain ⟨n, hn, hs⟩ := Option.map_eq_some_iff.1 hshell
    obtain ⟨hmem, hl⟩ := mem_of_find? hn
    have hk := h.kids_label hmem
    rw [hl, hkids] at hk
    refine List.mem_map.2 ⟨n, hmem, ?_⟩
    obtain ⟨label, shell, children⟩ := e
    simp_all [entry]

theorem entries_map_label : doc.entries.map Entry.label = doc.ids := Tree.entries_map_label _

theorem shell?_isSome_iff {id : NodeId} : (doc.shell? id).isSome ↔ id ∈ doc.ids := by
  rw [shell?, Option.isSome_map, find?_isSome_iff]

theorem kids_eq_nil {id : NodeId} (h : id ∉ doc.ids) : doc.kids id = [] := by
  have : doc.find? id = none := by
    rw [← Option.not_isSome_iff_eq_none, find?_isSome_iff]
    exact h
  rw [kids, this]
  rfl

theorem mem_ids_of_mem_kids {c p : NodeId} (h : c ∈ doc.kids p) : c ∈ doc.ids ∧ p ∈ doc.ids := by
  by_cases hp : p ∈ doc.ids
  · refine ⟨?_, hp⟩
    obtain ⟨n, hn⟩ := exists_of_mem_ids hp
    rw [kids, hn] at h
    obtain ⟨m, hm, rfl⟩ := List.mem_map.1 h
    exact List.mem_map_of_mem (mem_subtreesAll_children hm (mem_of_find? hn).1)
  · rw [kids_eq_nil hp] at h
    cases h

theorem WellFormed.lt_fresh (h : doc.WellFormed) {id : NodeId} (hid : id ∈ doc.ids) :
    id < doc.fresh := by
  obtain ⟨n, hn, rfl⟩ := List.mem_map.1 hid
  exact h.fresh n hn

theorem WellFormed.fresh_not_mem (h : doc.WellFormed) {id : NodeId} (hid : doc.fresh ≤ id) :
    id ∉ doc.ids := fun hm => Nat.not_lt.2 hid (h.lt_fresh hm)

theorem root_mem_ids : doc.root.label ∈ doc.ids :=
  List.mem_map_of_mem (mem_subtreesAll_of_mem (List.mem_cons_self ..))

/-- The places at the top of a tree, and the children of every place, are all places, each
once. -/
theorem ids_perm (doc : Document) :
    doc.ids.Perm (doc.root.label :: doc.detached.map Tree.label ++
      doc.entries.flatMap Entry.children) := by
  rw [← entries_map_label]
  exact labels_perm doc.trees

theorem WellFormed.nodup_tops (h : doc.WellFormed) :
    (doc.root.label :: doc.detached.map Tree.label ++ doc.entries.flatMap Entry.children).Nodup :=
  (ids_perm doc).nodup_iff.1 h.distinct

theorem mem_entries_kids (h : doc.WellFormed) {p : NodeId} (hp : p ∈ doc.ids) :
    ∃ e ∈ doc.entries, e.label = p ∧ e.children = doc.kids p := by
  obtain ⟨n, hn⟩ := exists_of_mem_ids hp
  obtain ⟨hmem, rfl⟩ := mem_of_find? hn
  exact ⟨n.entry, List.mem_map_of_mem hmem, rfl, (h.kids_label hmem).symm⟩

theorem WellFormed.nodup_kids (h : doc.WellFormed) (p : NodeId) : (doc.kids p).Nodup := by
  by_cases hp : p ∈ doc.ids
  · obtain ⟨e, he, -, hk⟩ := mem_entries_kids h hp
    have hflat := (List.nodup_append.1 h.nodup_tops).2.1
    rw [← hk]
    exact (List.nodup_flatMap.1 hflat).1 e he
  · rw [kids_eq_nil hp]
    exact List.nodup_nil

theorem WellFormed.parent_unique (h : doc.WellFormed) {c p q : NodeId} (hp : c ∈ doc.kids p)
    (hq : c ∈ doc.kids q) : p = q := by
  obtain ⟨e, he, rfl, hke⟩ := mem_entries_kids h (mem_ids_of_mem_kids hp).2
  obtain ⟨f, hf, rfl, hkf⟩ := mem_entries_kids h (mem_ids_of_mem_kids hq).2
  by_contra hne
  have hflat := (List.nodup_append.1 h.nodup_tops).2.1
  have : Std.Symm (Function.onFun List.Disjoint Entry.children) := ⟨fun _ _ hef => List.disjoint_symm hef⟩
  have hdis := (List.nodup_flatMap.1 hflat).2.forall he hf fun heq => hne (heq ▸ rfl)
  exact hdis (hke ▸ hp) (hkf ▸ hq)

theorem mem_children_of_mem_kids (h : doc.WellFormed) {c p : NodeId} (hc : c ∈ doc.kids p) :
    c ∈ doc.entries.flatMap Entry.children := by
  obtain ⟨e, he, -, hk⟩ := mem_entries_kids h (mem_ids_of_mem_kids hc).2
  exact List.mem_flatMap.2 ⟨e, he, hk ▸ hc⟩

theorem WellFormed.root_not_mem_kids (h : doc.WellFormed) (p : NodeId) :
    doc.root.label ∉ doc.kids p := fun hm =>
  (List.nodup_append.1 h.nodup_tops).2.2 _ (List.mem_cons_self ..) _
    (mem_children_of_mem_kids h hm) rfl

/-- What is loose is neither the whole document nor a child. -/
theorem WellFormed.isLoose_iff (h : doc.WellFormed) {id : NodeId} :
    doc.IsLoose id ↔ id ∈ doc.ids ∧ id ≠ doc.root.label ∧ ∀ p, id ∉ doc.kids p := by
  constructor
  · intro hl
    have hnodup := List.nodup_append.1 h.nodup_tops
    refine ⟨(ids_perm doc).mem_iff.2 (by simp [show id ∈ doc.detached.map Tree.label from hl]), ?_,
      fun p hm => ?_⟩
    · rintro rfl
      exact (List.nodup_cons.1 hnodup.1).1 hl
    · exact hnodup.2.2 _ (List.mem_cons_of_mem _ hl) _ (mem_children_of_mem_kids h hm) rfl
  · rintro ⟨hid, hroot, hkids⟩
    have hm := (ids_perm doc).mem_iff.1 hid
    rw [List.mem_append, List.mem_cons] at hm
    rcases hm with (hm | hm) | hm
    · exact absurd hm hroot
    · exact hm
    · obtain ⟨e, he, hc⟩ := List.mem_flatMap.1 hm
      exact absurd ((h.mem_entries_iff.1 he).2 ▸ hc) (hkids e.label)

theorem IsLoose.mem_ids {id : NodeId} (h : doc.IsLoose id) : id ∈ doc.ids := by
  obtain ⟨n, hn, rfl⟩ := List.mem_map.1 h
  exact List.mem_map_of_mem (mem_subtreesAll_of_mem (List.mem_cons_of_mem _ hn))

/-! ### Equal content -/

theorem mapAll_eq_map_fragment (ts : List Node) : mapAll (fun _ => ()) ts = ts.map fragment := by
  induction ts with
  | nil => rfl
  | cons t rest ih => rw [mapAll, ih, List.map_cons, fragment]

theorem fragment_eq_of_shell {s t : Node} (hshell : s.shell = t.shell)
    (hchildren : s.children.map fragment = t.children.map fragment) : s.fragment = t.fragment := by
  cases s <;> cases t <;>
    simp_all [mapAll_eq_map_fragment, fragment, Tree.map, Tree.shell, Tree.children]

/-- Places that correspond in what they are and in their children have the same content. -/
theorem fragment_eq_of_related {doc' : Document} (h : doc.WellFormed) (h' : doc'.WellFormed)
    {R : NodeId → NodeId → Prop} (hshell : ∀ a b, R a b → doc.shell? a = doc'.shell? b)
    (hkids : ∀ a b, R a b → List.Forall₂ R (doc.kids a) (doc'.kids b)) {n n' : Node}
    (hn : n ∈ doc.nodes) (hn' : n' ∈ doc'.nodes) (hrel : R n.label n'.label) :
    n.fragment = n'.fragment := by
  induction n using induct generalizing n' with
  | step n ih =>
    have hs := hshell _ _ hrel
    rw [h.shell?_label hn, h'.shell?_label hn', Option.some.injEq] at hs
    refine fragment_eq_of_shell hs ?_
    have hk := hkids _ _ hrel
    rw [h.kids_label hn, h'.kids_label hn', List.forall₂_map_left_iff,
      List.forall₂_map_right_iff] at hk
    have hall : List.Forall₂ (fun c c' => R c.label c'.label) n.children n'.children := hk
    rw [← List.forall₂_eq_eq_eq, List.forall₂_map_left_iff, List.forall₂_map_right_iff]
    refine forall₂_imp_mem hall fun c hc c' hc' hcc' => ?_
    exact ih c hc (mem_subtreesAll_children hc hn) (mem_subtreesAll_children hc' hn') hcc'

/-! ### Ranks

A number for every place that grows from parents to children shows that no place is below
itself. -/

/-- Children have larger numbers than their parents. -/
def Ranked (doc : Document) (rank : NodeId → Nat) : Prop :=
  ∀ p, ∀ c ∈ doc.kids p, rank p < rank c

theorem Ranked.le (h : doc.WellFormed) {rank : NodeId → Nat} (hr : doc.Ranked rank) {s n : Node}
    (hn : n ∈ doc.nodes) (hs : s ∈ n.subtrees) : rank n.label ≤ rank s.label := by
  induction n using induct with
  | step n ih =>
    rw [subtrees_eq, List.mem_cons] at hs
    rcases hs with rfl | hs
    · exact Nat.le_refl _
    · obtain ⟨c, hc, hsc⟩ := mem_subtreesAll.1 hs
      have hlt := hr n.label c.label (h.kids_label hn ▸ List.mem_map_of_mem hc)
      exact Nat.le_trans (Nat.le_of_lt hlt) (ih c hc (mem_subtreesAll_children hc hn) hsc)

theorem Ranked.find?_eq_none (h : doc.WellFormed) {rank : NodeId → Nat} (hr : doc.Ranked rank)
    {n : Node} (hn : n ∈ doc.nodes) {id : NodeId} (hlt : rank id < rank n.label) :
    n.find? id = none := by
  rw [Tree.find?, List.find?_eq_none]
  intro s hs hl
  have := Ranked.le h hr hn hs
  rw [of_decide_eq_true hl] at this
  omega

end

end Document

end Formulary
