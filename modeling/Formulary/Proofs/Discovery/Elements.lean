import Formulary.Discovery
import Formulary.Proofs.Document.Edits

/-! # The elements of a container

A search for elements lists all that are called `math` below a container, and leaves out those that
are marked and those from which a walk up the parents meets another one before it comes to the
container.  What it finds is what a search finds that goes down from the container and into no
element called `math` (`Source.elements_eq`): the walk stops at the container, so nothing above it
has a say. -/

namespace Formulary

open Formulary.Tree Document

namespace Source

mutual

/-- The outermost `math` elements at or below a place, without those that are marked. -/
def mathIn : Node → List Node
  | .string _ _ _ => []
  | .element label tag attributes children =>
    if tag = "math" then
      if (attributes.get? Formula.typesetMark).isNone then
        [.element label tag attributes children]
      else []
    else mathAmong children

/-- The same for a list of siblings. -/
def mathAmong : List Node → List Node
  | [] => []
  | node :: rest => mathIn node ++ mathAmong rest

end

theorem mathAmong_eq_flatMap (ts : List Node) : mathAmong ts = ts.flatMap mathIn := by
  induction ts with
  | nil => rfl
  | cons t rest ih => rw [mathAmong, ih, List.flatMap_cons]

theorem mem_mathAmong {n : Node} {ts : List Node} :
    n ∈ mathAmong ts ↔ ∃ t ∈ ts, n ∈ mathIn t := by
  rw [mathAmong_eq_flatMap, List.mem_flatMap]

theorem mathAmong_sublist_of_forall {ts : List Node}
    (h : ∀ t ∈ ts, (mathIn t).Sublist t.subtrees) :
    (mathAmong ts).Sublist (subtreesAll ts) := by
  induction ts with
  | nil => exact .refl _
  | cons t rest ih =>
    rw [mathAmong, subtreesAll]
    exact (h t (by simp)).append (ih fun u hu => h u (List.mem_cons_of_mem _ hu))

theorem mathIn_sublist (t : Node) : (mathIn t).Sublist t.subtrees := by
  induction t using induct with
  | step t ih =>
    cases t with
    | string => exact List.nil_sublist _
    | element label tag attributes children =>
      rw [mathIn, subtrees]
      split
      · split
        · exact (List.nil_sublist _).cons_cons _
        · exact List.nil_sublist _
      · exact (mathAmong_sublist_of_forall ih).cons _

theorem mathAmong_sublist (ts : List Node) : (mathAmong ts).Sublist (subtreesAll ts) :=
  mathAmong_sublist_of_forall fun t _ => mathIn_sublist t

theorem kind_of_mem_mathIn {n t : Node} (h : n ∈ mathIn t) :
    n.kind = "math" ∧ n.isElement = true := by
  induction t using induct with
  | step t ih =>
    cases t with
    | string => cases h
    | element label tag attributes children =>
      rw [mathIn] at h
      split at h
      · rename_i htag
        split at h
        · obtain rfl := List.mem_singleton.1 h
          exact ⟨htag, rfl⟩
        · cases h
      · obtain ⟨c, hc, hn⟩ := mem_mathAmong.1 h
        exact ih c hc hn

theorem kind_of_mem_mathAmong {n : Node} {ts : List Node} (h : n ∈ mathAmong ts) :
    n.kind = "math" ∧ n.isElement = true := by
  obtain ⟨t, -, ht⟩ := mem_mathAmong.1 h
  exact kind_of_mem_mathIn ht

/-! ### The walk up -/

section

variable {doc : Document} {container t c : Node} {steps depth : Nat}

theorem parentNode?_of_mem_children (h : doc.WellFormed) (ht : t ∈ doc.nodes)
    (hc : c ∈ t.children) : doc.parentNode? c.label = some t := by
  have hkid : c.label ∈ doc.kids t.label := h.kids_label ht ▸ List.mem_map_of_mem hc
  obtain ⟨p, hp, hmem, hlabel⟩ := parent?_isSome h hkid
  rw [hp, eq_of_label_eq h.distinct hmem ht hlabel]

/-- The walk from a child of the container ends at the container. -/
theorem meetsMath_of_mem_container (h : doc.WellFormed) (hcontainer : container ∈ doc.nodes)
    (hc : c ∈ container.children) (hsteps : 1 ≤ steps) :
    meetsMath doc container.label steps c.label = false := by
  obtain ⟨more, rfl⟩ := Nat.exists_eq_add_of_le' hsteps
  rw [meetsMath, parentNode?_of_mem_children h hcontainer hc]
  exact if_pos rfl

theorem label_ne_of_below (h : doc.WellFormed) (hcontainer : container ∈ doc.nodes)
    (ht : t ∈ subtreesAll container.children) : t.label ≠ container.label := by
  have hnodup := nodup_below h.distinct hcontainer
  rw [labels, subtrees_eq, List.map_cons, List.nodup_cons] at hnodup
  exact fun hlabel => hnodup.1 (hlabel ▸ List.mem_map_of_mem ht)

/-- The walk from a child of any other place goes on from that place. -/
theorem meetsMath_of_mem_children (h : doc.WellFormed) (ht : t ∈ doc.nodes)
    (hne : t.label ≠ container.label) (hc : c ∈ t.children) :
    meetsMath doc container.label (steps + 1) c.label =
      (t.kind = "math" || meetsMath doc container.label steps t.label) := by
  rw [meetsMath, parentNode?_of_mem_children h ht hc]
  exact if_neg hne

/-- An element is found by its name, its mark and the walk up from it. -/
def isFound (doc : Document) (container : Node) (steps : Nat) (node : Node) : Bool :=
  ((node.attribute? Formula.typesetMark).isNone &&
    !meetsMath doc container.label steps node.label) && (node.isElement && node.kind = "math")

/-- What is found at or below some siblings, if the same is known of each. -/
theorem filter_isFound_of_forall {ts : List Node} {above : Bool}
    (h : ∀ t ∈ ts, t.subtrees.filter (isFound doc container steps) =
      if above then [] else mathIn t) :
    (subtreesAll ts).filter (isFound doc container steps) = if above then [] else mathAmong ts := by
  rw [subtreesAll_eq_flatMap, List.filter_flatMap, mathAmong_eq_flatMap, List.flatMap_congr h]
  cases above
  · rfl
  · exact List.flatMap_eq_nil_iff.2 fun _ _ => rfl

/-- What is found at or below a place of the container if the walk up from it, of any number of
steps from `depth` on, comes to the answer `above`, and there are steps enough for every place below
it. -/
theorem filter_isFound_subtrees (h : doc.WellFormed) (hcontainer : container ∈ doc.nodes)
    {above : Bool} (ht : t ∈ subtreesAll container.children)
    (habove : ∀ more ≥ depth, meetsMath doc container.label more t.label = above)
    (hsteps : depth + t.subtrees.length ≤ steps + 1) :
    t.subtrees.filter (isFound doc container steps) = if above then [] else mathIn t := by
  induction t using induct generalizing depth above with
  | step t ih =>
    have hne : t.label ≠ container.label := label_ne_of_below h hcontainer ht
    have hlength : t.subtrees.length = (subtreesAll t.children).length + 1 := by
      rw [subtrees_eq, List.length_cons]
    have hbelow : (subtreesAll t.children).filter (isFound doc container steps) =
        if (t.kind = "math" || above) then [] else mathAmong t.children := by
      refine filter_isFound_of_forall fun c hc => ?_
      have hdepth : ∀ more ≥ depth + 1, meetsMath doc container.label more c.label =
          (t.kind = "math" || above) := fun more hmore => by
        obtain ⟨more, rfl⟩ := Nat.exists_eq_add_of_le' (Nat.le_of_add_left_le hmore)
        rw [meetsMath_of_mem_children h (mem_subtreesAll_of_below ht hcontainer) hne hc,
          habove more (Nat.le_of_succ_le_succ hmore)]
      have hle := (subtrees_sublist hc).length_le
      exact ih c hc (mem_subtreesAll_children hc ht) hdepth (by omega)
    rw [subtrees_eq, List.filter_cons, hbelow, isFound, habove steps (by omega)]
    cases above with
    | true => simp
    | false =>
      cases t with
      | string label kind value => simp [isElement, mathIn, mathAmong, Tree.children]
      | element label tag attributes children =>
        by_cases htag : tag = "math"
        · simp [htag, Tree.kind, isElement, attribute?, mathIn]
        · simp [htag, Tree.kind, mathIn, Tree.children]

/-- The elements of a container are the outermost ones below it that have no mark. -/
theorem elements_eq (h : doc.WellFormed) (hcontainer : container ∈ doc.nodes) :
    elements doc container =
      (mathAmong container.children).map fun node => (node.label, isDisplay node) := by
  have hlength : (subtreesAll container.children).length + 1 ≤ doc.nodes.length := by
    have hle := (sublist_subtreesAll hcontainer).length_le
    rwa [subtrees_eq, List.length_cons] at hle
  have hfound : (subtreesAll container.children).filter
      (isFound doc container doc.nodes.length) =
        if false then [] else mathAmong container.children := by
    refine filter_isFound_of_forall fun c hc => ?_
    have hle := (subtrees_sublist hc).length_le
    exact filter_isFound_subtrees h hcontainer (mem_subtreesAll_of_mem hc)
      (fun _ => meetsMath_of_mem_container h hcontainer hc) (by omega)
  rw [elements, descendants, List.filter_filter]
  exact congrArg _ hfound

end

end Source

end Formulary
