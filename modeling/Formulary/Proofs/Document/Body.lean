import Formulary.Proofs.Search.HiddenPlaces

/-! # Where the running content is

The running content of a document is in its first element named `body`, or in the whole of it.  It
stays where it is when places in it give way to others, provided that these bring no such element
along (`Document.Varied.body_eq`). -/

namespace Formulary

open Formulary.Tree Document

/-- Whether a tree is an element that holds running content. -/
def Tree.isBody {α : Type} (t : Tree α) : Bool := t.isElement && t.kind = "body"

/-- No element in a tree holds running content. -/
def Tree.IsBodiless {α : Type} (t : Tree α) : Prop := ∀ n ∈ t.subtrees, n.isBody = false

theorem Tree.isBodiless_element {α : Type} {label : α} {tag : String}
    {attributes : Fields Attribute} {children : List (Tree α)} :
    (Tree.element label tag attributes children).IsBodiless ↔
      tag ≠ "body" ∧ ∀ c ∈ children, c.IsBodiless := by
  have hself : (Tree.element label tag attributes children).isBody = false ↔ tag ≠ "body" := by
    rw [isBody, isElement, kind, Bool.true_and, decide_eq_false_iff_not]
  rw [IsBodiless, subtrees_eq, List.forall_mem_cons, hself, Tree.children]
  refine and_congr_right fun _ => ⟨fun h c hc n hn => ?_, fun h n hn => ?_⟩
  · exact h n (mem_subtreesAll.2 ⟨c, hc, hn⟩)
  · obtain ⟨c, hc, hn⟩ := mem_subtreesAll.1 hn
    exact h c hc n hn

theorem Tree.isBodiless_string {α : Type} {label : α} {kind : StringKind} {value : String} :
    (Tree.string label kind value).IsBodiless := fun n hn => by
  rw [List.mem_singleton.1 hn]
  rfl

theorem Tree.isBody_shell (t : Node) : t.shell.isBody = t.isBody := by cases t <;> rfl

theorem Document.body_eq_find? (doc : Document) :
    doc.body = (((subtreesAll doc.root.children).find? isBody).map label).getD doc.root.label := by
  have hhead : (doc.root.descendants "body").head? =
      (subtreesAll doc.root.children).find? isBody := List.head?_filter
  rw [body, ← hhead]
  cases doc.root.descendants "body" <;> rfl

/-- The document `doc'` is `doc` with `shown id` where the place `id` stood, which is the place
itself unless that is in the running content.  What is new there brings no `body` along. -/
structure Document.Varied (doc doc' : Document) (shown : NodeId → List NodeId) : Prop where
  root : doc'.root.label = doc.root.label
  kids : ∀ p ∈ doc.ids, doc'.kids p = (doc.kids p).flatMap shown
  shell : ∀ id ∈ doc.ids, doc'.shell? id = doc.shell? id
  outside : ∀ id ∈ doc.ids, doc.isBelow (fun top => top = doc.body) id = false → shown id = [id]
  new : ∀ n ∈ doc.nodes, n.IsBodiless → ∀ v ∈ shown n.label, v ≠ n.label →
    ∀ n', doc'.find? v = some n' → n'.IsBodiless

section

variable {doc doc' : Document} {shown : NodeId → List NodeId}

theorem find?_eq_none_iff {t : Node} : t.subtrees.find? isBody = none ↔ t.IsBodiless := by
  rw [List.find?_eq_none]
  exact forall₂_congr fun n _ => by rw [Bool.not_eq_true]

theorem Document.Varied.isBody_eq (V : doc.Varied doc' shown) (h : doc.WellFormed)
    (h' : doc'.WellFormed) {n n' : Node} (hn : n ∈ doc.nodes) (hn' : n' ∈ doc'.nodes)
    (hlabel : n'.label = n.label) : n'.isBody = n.isBody := by
  have hshell := V.shell n.label (List.mem_map_of_mem hn)
  rw [h.shell?_label hn, ← hlabel, h'.shell?_label hn', Option.some.injEq] at hshell
  rw [← isBody_shell, hshell, isBody_shell]

theorem Document.Varied.bodiless (V : doc.Varied doc' shown) (h : doc.WellFormed)
    (h' : doc'.WellFormed) {t t' : Node} (ht : t ∈ doc.nodes)
    (ht' : doc'.find? t.label = some t') (hnone : ∀ n ∈ subtreesAll t.children, n.isBody = false) :
    ∀ n ∈ subtreesAll t'.children, n.isBody = false := by
  induction t using induct generalizing t' with
  | step t ih =>
    intro n hn
    obtain ⟨hmem, hlabel⟩ := mem_of_find? ht'
    obtain ⟨c', hc', hn⟩ := mem_subtreesAll.1 hn
    have hmem' := mem_subtreesAll_children hc' hmem
    have hkid : c'.label ∈ doc'.kids t.label :=
      hlabel ▸ h'.kids_label hmem ▸ List.mem_map_of_mem hc'
    rw [V.kids _ (List.mem_map_of_mem ht), h.kids_label ht, List.flatMap_map] at hkid
    obtain ⟨c, hc, hshown⟩ := List.mem_flatMap.1 hkid
    have hc'' := mem_subtreesAll_children hc ht
    by_cases hsame : c'.label = c.label
    · rw [subtrees_eq] at hn
      rcases List.mem_cons.1 hn with rfl | hn
      · rw [V.isBody_eq h h' hc'' hmem' hsame]
        exact hnone c (mem_subtreesAll_of_mem hc)
      · exact ih c hc hc'' (hsame ▸ h'.find?_label hmem')
          (fun m hm => hnone m (mem_subtreesAll.2 ⟨c, hc, mem_subtrees_of_below hm⟩)) n hn
    · exact V.new c hc'' (fun m hm => hnone m (mem_subtreesAll.2 ⟨c, hc, hm⟩)) _ hshown hsame c'
        (h'.find?_label hmem') n hn

/-- The first `body` of two trees has the same identity, if it is `container` in the first one. -/
def SameBody (container : Node) (t t' : Node) : Prop :=
  (t.IsBodiless → t'.IsBodiless) ∧ (t.subtrees.find? isBody = some container →
    (t'.subtrees.find? isBody).map label = some container.label)

theorem sameBody_of_forall₂ {container : Node} {ts us : List Node}
    (h : List.Forall₂ (SameBody container) ts us)
    (hfind : (subtreesAll ts).find? isBody = some container) :
    ((subtreesAll us).find? isBody).map label = some container.label := by
  induction h with
  | nil => cases hfind
  | @cons t u ts us hfirst _ ih =>
    rw [subtreesAll, List.find?_append] at hfind ⊢
    cases ht : t.subtrees.find? isBody with
    | none =>
      rw [ht, Option.none_or] at hfind
      rw [find?_eq_none_iff.2 (hfirst.1 (find?_eq_none_iff.1 ht)), Option.none_or]
      exact ih hfind
    | some n =>
      rw [ht, Option.some_or] at hfind
      have hu := hfirst.2 (ht.trans hfind)
      cases hn : u.subtrees.find? isBody with
      | none => rw [hn] at hu; cases hu
      | some m => rw [Option.some_or, ← hn, hu]

/-- The first `body` is found where it was. -/
theorem Document.Varied.find?_eq (V : doc.Varied doc' shown) (h : doc.WellFormed)
    (h' : doc'.WellFormed) {container t t' : Node} (hbody : doc.body = container.label)
    (hcontainer : container ∈ doc.nodes) (ht : t ∈ doc.nodes)
    (ht' : doc'.find? t.label = some t')
    (hout : doc.isBelow (fun top => top = doc.body) t.label = false) (hne : t.label ≠ doc.body)
    (hfind : (subtreesAll t.children).find? isBody = some container) :
    ((subtreesAll t'.children).find? isBody).map label = some container.label := by
  induction t using induct generalizing t' with
  | step t ih =>
    obtain ⟨hmem, hlabel⟩ := mem_of_find? ht'
    have hchild : ∀ c ∈ t.children, doc.isBelow (fun top => top = doc.body) c.label = false :=
      fun c hc => by simp [h.isBelow_child ht hc, hout, hne]
    have hlabels : t'.children.map label = t.children.map label := by
      rw [← h'.kids_label hmem, hlabel, V.kids _ (List.mem_map_of_mem ht), h.kids_label ht,
        List.flatMap_map, List.map_eq_flatMap]
      exact List.flatMap_congr fun c hc => V.outside c.label
        (List.mem_map_of_mem (mem_subtreesAll_children hc ht)) (hchild c hc)
    have hpairs : List.Forall₂ (fun c c' => c'.label = c.label) t.children t'.children := by
      rw [← List.forall₂_eq_eq_eq, List.forall₂_map_left_iff, List.forall₂_map_right_iff]
        at hlabels
      exact hlabels.flip
    refine sameBody_of_forall₂ (forall₂_imp_mem hpairs fun c hc c' hc' hsame => ?_) hfind
    have hc'' := mem_subtreesAll_children hc ht
    have hmem' := mem_subtreesAll_children hc' hmem
    have hfind' : doc'.find? c.label = some c' := hsame ▸ h'.find?_label hmem'
    have hbodies := V.isBody_eq h h' hc'' hmem' hsame
    refine ⟨fun hnone n hn => ?_, fun hsome => ?_⟩
    · rw [subtrees_eq] at hn
      rcases List.mem_cons.1 hn with rfl | hn
      · rw [hbodies]
        exact hnone c c.self_mem_subtrees
      · exact V.bodiless h h' hc'' hfind' (fun m hm => hnone m (mem_subtrees_of_below hm)) n hn
    · rw [subtrees_eq] at hsome ⊢
      cases hself : c.isBody with
      | true =>
        rw [List.find?_cons_of_pos hself, Option.some.injEq] at hsome
        rw [List.find?_cons_of_pos (hbodies.trans hself), Option.map_some, hsame, hsome]
      | false =>
        rw [List.find?_cons_of_neg (by simp [hself])] at hsome
        rw [List.find?_cons_of_neg (by simp [hbodies, hself])]
        refine ih c hc hc'' hfind' (hchild c hc) (fun heq => ?_) hsome
        obtain rfl : c = container := eq_of_label_eq h.distinct hc'' hcontainer (heq.trans hbody)
        rw [List.find?_some hsome] at hself
        cases hself

/-- The running content is where it was. -/
theorem Document.Varied.body_eq (V : doc.Varied doc' shown) (h : doc.WellFormed)
    (h' : doc'.WellFormed) : doc'.body = doc.body := by
  have hroot : doc.root ∈ doc.nodes := mem_subtreesAll_of_mem (List.mem_cons_self ..)
  have hroot' : doc'.root ∈ doc'.nodes := mem_subtreesAll_of_mem (List.mem_cons_self ..)
  have hfind' : doc'.find? doc.root.label = some doc'.root := V.root ▸ h'.find?_label hroot'
  have hbody := doc.body_eq_find?
  cases hfind : (subtreesAll doc.root.children).find? isBody with
  | none =>
    have hnone := V.bodiless h h' hroot hfind' fun n hn => by
      simpa using List.find?_eq_none.1 hfind n hn
    have hfind'' : (subtreesAll doc'.root.children).find? isBody = none :=
      List.find?_eq_none.2 fun n hn => by simp [hnone n hn]
    rw [hbody, doc'.body_eq_find?, hfind, hfind'', Option.map_none, Option.getD_none,
      Option.getD_none, V.root]
  | some container =>
    rw [hfind, Option.map_some, Option.getD_some] at hbody
    have hbelow := List.mem_of_find?_eq_some hfind
    have hcontainer : container ∈ doc.nodes := mem_subtreesAll_of_below hbelow hroot
    have hne : doc.root.label ≠ doc.body := fun heq =>
      h.label_not_mem hroot (heq ▸ hbody ▸ List.mem_map_of_mem hbelow)
    have hout : doc.isBelow (fun top => top = doc.body) doc.root.label = false := by
      refine Bool.eq_false_iff.2 fun hin => ?_
      obtain ⟨n, hn, -, hmem⟩ := isBelow_iff.1 hin
      exact label_not_mem_below h.distinct (List.mem_cons_self ..) hn hmem
    rw [doc'.body_eq_find?, V.find?_eq h h' hbody hcontainer hroot hfind' hout hne hfind,
      Option.getD_some, hbody]

end

end Formulary
