import Mathlib.Data.List.Nodup
import Formulary.Proofs.Discovery.TypesetMarks

/-! # What a search for elements covers

A search for elements goes down into a container until it meets an element that is called `math`,
and no further.  So no two of the elements that it finds share a place (`Source.nodup_covered`), and
every such element of the container is covered by one of them, itself or an element that it is
inside of, unless a marked one is in the way (`Source.exists_covering`).

Only what is below the container has a say: the container may itself be called `math`, or be inside
of such an element, or of a marked one. -/

namespace Formulary

open Formulary.Tree Document

/-- The place is called as an element of mathematics is. -/
def Tree.IsMath (node : Node) : Prop := node.kind = "math"

theorem Tree.isMarked_element_iff {label : NodeId} {tag : String} {attributes : Fields Attribute}
    {children : List Node} : (element label tag attributes children).IsMarked ↔
      (attributes.get? Formula.typesetMark).isNone = false := by
  rw [IsMarked, attribute?, Option.isSome_map]
  cases attributes.get? Formula.typesetMark <;> simp

theorem StringKind.name_ne_math (kind : StringKind) : kind.name ≠ "math" := by
  cases kind <;> decide

namespace Source

variable {doc : Document} {container m n t : Node} {ts : List Node}

/-! ### Elements side by side -/

theorem flatMap_sublist {α β : Type} {l : List α} {f g : α → List β}
    (h : ∀ x ∈ l, (f x).Sublist (g x)) : (l.flatMap f).Sublist (l.flatMap g) := by
  induction l with
  | nil => exact .refl _
  | cons x rest ih =>
    obtain ⟨hx, hrest⟩ := List.forall_mem_cons.1 h
    rw [List.flatMap_cons, List.flatMap_cons]
    exact hx.append (ih hrest)

theorem covered_sublist_of_forall (h : ∀ t ∈ ts, ((mathIn t).flatMap subtrees).Sublist t.subtrees) :
    ((mathAmong ts).flatMap subtrees).Sublist (subtreesAll ts) := by
  rw [mathAmong_eq_flatMap, List.flatMap_assoc, subtreesAll_eq_flatMap]
  exact flatMap_sublist h

theorem covered_sublist_subtrees (t : Node) : ((mathIn t).flatMap subtrees).Sublist t.subtrees := by
  induction t using induct with
  | step t ih =>
    cases t with
    | string => exact List.nil_sublist _
    | element label tag attributes children =>
      rw [mathIn]
      split
      · split
        · rw [List.flatMap_singleton]
        · exact List.nil_sublist _
      · rw [subtrees_eq]
        exact (covered_sublist_of_forall ih).cons _

theorem covered_sublist (ts : List Node) :
    ((mathAmong ts).flatMap subtrees).Sublist (subtreesAll ts) :=
  covered_sublist_of_forall fun t _ => covered_sublist_subtrees t

/-- No place is in two of the elements that are found. -/
theorem nodup_covered (hdoc : doc.WellFormed) (hc : container ∈ doc.nodes) :
    ((mathAmong container.children).flatMap subtrees).Nodup := by
  have hnodup := (nodup_below hdoc.distinct hc).of_map
  rw [subtrees_eq, List.nodup_cons] at hnodup
  exact hnodup.2.sublist (covered_sublist _)

theorem eq_of_shared (hdoc : doc.WellFormed) (hc : container ∈ doc.nodes)
    (hm : m ∈ mathAmong container.children) (hn : n ∈ mathAmong container.children)
    (htm : t ∈ m.subtrees) (htn : t ∈ n.subtrees) : m = n := by
  have : Std.Symm (Function.onFun List.Disjoint (subtrees : Node → List Node)) :=
    ⟨fun _ _ h _ hn hm => h hm hn⟩
  have hapart := (List.nodup_flatMap.1 (nodup_covered hdoc hc)).2
  by_contra hne
  exact hapart.forall hm hn hne htm htn

/-! ### Elements that are covered -/

theorem not_isMarked_of_mem_mathIn (h : m ∈ mathIn t) : ¬m.IsMarked := by
  induction t using induct with
  | step t ih =>
    cases t with
    | string => cases h
    | element label tag attributes children =>
      rw [mathIn] at h
      split at h
      · split at h
        · rename_i hunmarked
          obtain rfl := List.mem_singleton.1 h
          rw [isMarked_element_iff, hunmarked]
          decide
        · cases h
      · obtain ⟨c, hc, hm⟩ := Source.mem_mathAmong.1 h
        exact ih c hc hm

/-- An element is covered if it has no mark and none of those that it is inside of has one. -/
theorem exists_covering_subtrees (hm : m ∈ t.subtrees) (hmath : m.IsMath)
    (hunmarked : ∀ a ∈ t.subtrees, a.IsMath → m ∈ a.subtrees → ¬a.IsMarked) :
    ∃ e ∈ mathIn t, m ∈ e.subtrees := by
  induction t using induct with
  | step t ih =>
    cases t with
    | string label kind value =>
      obtain rfl := List.mem_singleton.1 hm
      exact absurd hmath kind.name_ne_math
    | element label tag attributes children =>
      rw [mathIn]
      split
      · rename_i htag
        have hself := hunmarked _ (self_mem_subtrees _) htag hm
        rw [isMarked_element_iff, Bool.not_eq_false] at hself
        rw [if_pos hself]
        exact ⟨_, List.mem_singleton_self _, hm⟩
      · rename_i htag
        rw [subtrees_eq, List.mem_cons] at hm
        rcases hm with rfl | hm
        · exact absurd hmath htag
        · obtain ⟨c, hc, hm⟩ := mem_subtreesAll.1 hm
          obtain ⟨e, he, hcovered⟩ := ih c hc hm fun a ha =>
            hunmarked a (mem_subtrees_of_child hc ha)
          exact ⟨e, Source.mem_mathAmong.2 ⟨c, hc, he⟩, hcovered⟩

theorem exists_covering (hm : m ∈ subtreesAll ts) (hmath : m.IsMath)
    (hunmarked : ∀ a ∈ subtreesAll ts, a.IsMath → m ∈ a.subtrees → ¬a.IsMarked) :
    ∃ e ∈ mathAmong ts, m ∈ e.subtrees := by
  obtain ⟨t, ht, hm⟩ := mem_subtreesAll.1 hm
  obtain ⟨e, he, hcovered⟩ := exists_covering_subtrees hm hmath fun a ha =>
    hunmarked a (mem_subtreesAll.2 ⟨t, ht, ha⟩)
  exact ⟨e, Source.mem_mathAmong.2 ⟨t, ht, he⟩, hcovered⟩

/-! ### The same content elsewhere -/

theorem map_fragment_mathAmong_of_forall {us : List Node}
    (h : ∀ t ∈ ts, ∀ u : Node, u.fragment = t.fragment →
      (mathIn u).map fragment = (mathIn t).map fragment)
    (hcontent : us.map fragment = ts.map fragment) :
    (mathAmong us).map fragment = (mathAmong ts).map fragment := by
  induction ts generalizing us with
  | nil => rw [List.map_eq_nil_iff.1 hcontent]
  | cons t rest ih =>
    obtain ⟨u, others, rfl, hu, hothers⟩ := List.map_eq_cons_iff.1 hcontent
    obtain ⟨ht, hrest⟩ := List.forall_mem_cons.1 h
    rw [mathAmong, mathAmong, List.map_append, List.map_append, ht u hu, ih hrest hothers]

/-- What is found in a tree depends on its content, and on no places. -/
theorem map_fragment_mathIn {u : Node} (h : u.fragment = t.fragment) :
    (mathIn u).map fragment = (mathIn t).map fragment := by
  induction t using induct generalizing u with
  | step t ih =>
    cases t with
    | string =>
      cases u with
      | string => rfl
      | element => cases h
    | element label tag attributes children =>
      cases u with
      | string => cases h
      | element label' tag' attributes' children' =>
        have hfields := h
        rw [fragment, fragment, Tree.map, Tree.map, Tree.element.injEq, mapAll_eq_map_fragment,
          mapAll_eq_map_fragment] at hfields
        obtain ⟨-, rfl, rfl, hcontent⟩ := hfields
        rw [mathIn, mathIn]
        split
        · split
          · rw [List.map_singleton, List.map_singleton, h]
          · rfl
        · exact map_fragment_mathAmong_of_forall (fun c hc u hu => ih c hc hu) hcontent

theorem map_fragment_mathAmong {us : List Node} (h : us.map fragment = ts.map fragment) :
    (mathAmong us).map fragment = (mathAmong ts).map fragment :=
  map_fragment_mathAmong_of_forall (fun _ _ _ => map_fragment_mathIn) h

end Source

/-- A search for elements finds elements that are called `math`, without a mark, in document order,
and none of them inside another.  Each that is below the container is covered by just one of them,
itself or one that it is inside of, if neither it nor one that it is inside of below the container
has a mark.  Those that are found are the ones that are inside of none below the container, so what
is above it makes no difference: in another container with the same content, wherever it stands and
in whatever document, the same is found. -/
theorem elements_cover (doc : Document) (hdoc : doc.WellFormed) (container : Node)
    (hc : container ∈ doc.nodes) :
    let below := subtreesAll container.children
    ∃ found : List Node,
      Source.elements doc container = found.map (fun m => (m.label, Source.isDisplay m)) ∧
      (found.Sublist below ∧ found.Nodup) ∧
      (∀ m ∈ found, ∀ n ∈ found, n ∉ subtreesAll m.children) ∧
      (∀ m ∈ found, m.IsMath ∧ ¬m.IsMarked) ∧
      (∀ m ∈ below, m.IsMath → ¬m.IsMarked →
        (∀ a ∈ below, a.IsMath → m ∈ subtreesAll a.children → ¬a.IsMarked) →
        ∃! e, e ∈ found ∧ m ∈ e.subtrees) ∧
      (∀ m, m ∈ found ↔ m ∈ below ∧ m.IsMath ∧ ¬m.IsMarked ∧
        ∀ a ∈ below, a.IsMath → m ∉ subtreesAll a.children) ∧
      ∀ (doc' : Document) (container' : Node), doc'.WellFormed → container' ∈ doc'.nodes →
        container'.children.map fragment = container.children.map fragment →
        ∃ found' : List Node,
          Source.elements doc' container' = found'.map (fun m => (m.label, Source.isDisplay m)) ∧
          found'.map fragment = found.map fragment := by
  intro below
  have hsublist : (Source.mathAmong container.children).Sublist below := Source.mathAmong_sublist _
  have hnodup := (nodup_below hdoc.distinct hc).of_map
  rw [subtrees_eq, List.nodup_cons] at hnodup
  have hmath {m : Node} (hm : m ∈ Source.mathAmong container.children) : m.IsMath :=
    (Source.kind_of_mem_mathAmong hm).1
  have hunmarked {m : Node} (hm : m ∈ Source.mathAmong container.children) : ¬m.IsMarked := by
    obtain ⟨t, -, hm⟩ := Source.mem_mathAmong.1 hm
    exact Source.not_isMarked_of_mem_mathIn hm
  have houtside {m a : Node} (hm : m ∈ Source.mathAmong container.children) (ha : a ∈ below)
      (hkind : a.IsMath) : m ∉ subtreesAll a.children := fun hinside =>
    kind_ne_of_mem_mathAmong hdoc hc hm ha hinside rfl hkind
  have hcovered {m : Node} (hm : m ∈ below) (hkind : m.IsMath) (hmark : ¬m.IsMarked)
      (habove : ∀ a ∈ below, a.IsMath → m ∈ subtreesAll a.children → ¬a.IsMarked) :
      ∃ e ∈ Source.mathAmong container.children, m ∈ e.subtrees := by
    refine Source.exists_covering hm hkind fun a ha hmatha hinside => ?_
    rw [subtrees_eq, List.mem_cons] at hinside
    rcases hinside with rfl | hinside
    · exact hmark
    · exact habove a ha hmatha hinside
  refine ⟨Source.mathAmong container.children, Source.elements_eq hdoc hc, ⟨hsublist, hnodup.2.sublist hsublist⟩,
    fun m hm n hn => houtside hn (hsublist.subset hm) (hmath hm), fun m hm => ⟨hmath hm, hunmarked hm⟩,
    fun m hm hkind hmark habove => ?_, fun m => ⟨fun hm => ?_, ?_⟩,
    fun doc' container' hdoc' hc' hcontent => ?_⟩
  · obtain ⟨e, he, hme⟩ := hcovered hm hkind hmark habove
    exact ⟨e, ⟨he, hme⟩, fun e' he' => Source.eq_of_shared hdoc hc he'.1 he he'.2 hme⟩
  · exact ⟨hsublist.subset hm, hmath hm, hunmarked hm, fun a ha hkind => houtside hm ha hkind⟩
  · rintro ⟨hm, hkind, hmark, hnone⟩
    obtain ⟨e, he, hme⟩ := hcovered hm hkind hmark fun a ha hmatha hinside =>
      absurd hinside (hnone a ha hmatha)
    rw [subtrees_eq, List.mem_cons] at hme
    rcases hme with rfl | hinside
    · exact he
    · exact absurd hinside (hnone e (hsublist.subset he) (hmath he))
  · exact ⟨Source.mathAmong container'.children, Source.elements_eq hdoc' hc',
      Source.map_fragment_mathAmong hcontent⟩

/-- An annotation of a typeset formula, with a formula inside another and one inside a typeset one.
-/
def Document.annotatedFormula : Document :=
  .ofFragments [.build "math" [("data-mathscan", "TeX")] [.build "mtext" []
    [.build "math" [] [.build "mtext" [] [.build "math" [] []]],
      .build "math" [("data-mathscan", "MathML")] [.build "math" [] []]]]]

/-- The formula inside another is covered by that one, though what holds both is typeset. -/
theorem elements_cover_annotatedFormula :
    annotatedFormula.WellFormed ∧ ∃ container ∈ annotatedFormula.nodes, ∃ found : List Node,
      Source.elements annotatedFormula container = [(3, false)] ∧
      Source.elements annotatedFormula container = found.map (fun m => (m.label, Source.isDisplay m)) ∧
      ∃ m ∈ subtreesAll container.children, m.label = 5 ∧ m.IsMath ∧ ¬m.IsMarked ∧
        ∃! e, e ∈ found ∧ m ∈ e.subtrees := by
  have hdoc : annotatedFormula.WellFormed := wellFormed_ofFragments _
  obtain ⟨container, hc, helements, ⟨m, hm, hlabel, hmath, hunmarked⟩, hmarked⟩ :
      ∃ container ∈ annotatedFormula.nodes, Source.elements annotatedFormula container = [(3, false)] ∧
        (∃ m ∈ subtreesAll container.children, m.label = 5 ∧ m.kind = "math" ∧
          ¬(m.attribute? Formula.typesetMark).isSome = true) ∧
        ∀ a ∈ subtreesAll container.children, (a.attribute? Formula.typesetMark).isSome = true →
          ∀ n ∈ subtreesAll a.children, n.label ≠ 5 := by
    decide +kernel
  obtain ⟨found, hfound, -, -, -, hcover, -⟩ := elements_cover annotatedFormula hdoc container hc
  exact ⟨hdoc, container, hc, found, helements, hfound, m, hm, hlabel, hmath, hunmarked,
    hcover m hm hmath hunmarked fun a ha _ hinside hmark => hmarked a ha hmark m hinside hlabel⟩

end Formulary
