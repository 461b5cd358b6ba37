import Formulary.Proofs.Search.FindsByLine

/-! # What a search notes after a change of the document

When places of a document have given way to other ones, a search still goes the same way through
what is left.  So what it notes is what it noted before with pieces told anew and with what is out
of sight left out (`Document.Retold.signs_eq`).  It is compared sign by sign, since a string may
have been cut in two. -/

namespace Formulary

open Formulary.Tree Document

/-! ### Places of a document -/

/-- What a search notes of a place of a document. -/
def Document.signsAt (doc : Document) (w : Watch) (id : NodeId) : List Sign :=
  ((doc.find? id).map fun n => signs (marksIn hideNone w n)).getD []

section

variable {doc doc' : Document} {hide : NodeId → Bool} {w : Watch}

theorem Document.WellFormed.signsAt_label (h : doc.WellFormed) {n : Node} (hn : n ∈ doc.nodes) :
    doc.signsAt w n.label = signs (marksIn hideNone w n) := by
  rw [signsAt, h.find?_label hn]
  rfl

theorem signs_flatMap {ts : List Node} {f : Node → List Mark} :
    signs (ts.flatMap f) = ts.flatMap fun t => signs (f t) := List.flatMap_assoc

theorem Document.WellFormed.flatMap_signsAt (h : doc.WellFormed) {n : Node} (hn : n ∈ doc.nodes) :
    (doc.kids n.label).flatMap (doc.signsAt w) = signs (marksAmong hideNone w n.children) := by
  rw [h.kids_label hn, List.flatMap_map, marksAmong_eq_flatMap, signs_flatMap]
  exact List.flatMap_congr fun c hc => h.signsAt_label (mem_subtreesAll_children hc hn)

/-- What a search notes of a place apart from what is in it depends only on what the place is. -/
theorem shell_cases {s t : Node} (hlabel : s.label = t.label) (hshell : s.shell = t.shell) :
    s = t ∨ ∃ label tag attributes children children',
      s = .element label tag attributes children ∧
        t = .element label tag attributes children' := by
  cases s with
  | string label kind value =>
    cases t with
    | string label' kind' value' =>
      left
      simp only [Tree.shell, Tree.string.injEq, true_and] at hshell
      obtain ⟨rfl, rfl⟩ := hshell
      obtain rfl : label = label' := hlabel
      rfl
    | element => cases hshell
  | element label tag attributes children =>
    cases t with
    | string => cases hshell
    | element label' tag' attributes' children' =>
      right
      simp only [Tree.shell, Tree.element.injEq, true_and, and_true] at hshell
      obtain ⟨rfl, rfl⟩ := hshell
      obtain rfl : label = label' := hlabel
      exact ⟨label, tag, attributes, children, children', rfl, rfl⟩

variable {s t : Node}

theorem piece?_congr (hlabel : s.label = t.label) (hshell : s.shell = t.shell)
    (hplain : s.isText = true → s.isElement = false) :
    ({} : Extraction).piece? s = ({} : Extraction).piece? t := by
  rcases shell_cases hlabel hshell with rfl | ⟨label, tag, attributes, children, children', rfl, rfl⟩
  · rfl
  · have htext : ∀ cs : List Node, (Tree.element label tag attributes cs : Node).isText = false :=
      fun cs => by
        rw [← Bool.not_eq_true]
        exact fun htext => Bool.noConfusion (hplain htext)
    rw [Extraction.piece?, Extraction.piece?, htext, htext]
    rfl

theorem Watch.congr (w : Watch) (hlabel : s.label = t.label) (hshell : s.shell = t.shell)
    (hplain : s.isText = true → s.isElement = false) :
    w.before s = w.before t ∧ w.own s = w.own t ∧ w.after s = w.after t ∧
      w.inside s = w.inside t := by
  have hpiece := piece?_congr hlabel hshell hplain
  refine ⟨?_, ?_, ?_, ?_⟩
  · rw [before, before, hpiece]
  · rcases shell_cases hlabel hshell with rfl | ⟨_, _, _, _, _, rfl, rfl⟩ <;> rfl
  · rw [after, after, hpiece]
  · rcases shell_cases hlabel hshell with rfl | ⟨_, _, _, _, _, rfl, rfl⟩
    · rfl
    · rw [inside, inside, hpiece]

end

/-! ### Where a piece is noted -/

section

variable {hide : NodeId → Bool} {w : Watch} {t : Node} {p : Piece}

/-- A piece that is noted in a place is the place itself or below it. -/
theorem piece_mem_marksIn (h : .piece p ∈ marksIn hideNone w t) :
    (p.node = t.label ∧ w.reads = true ∧ w.ignores = false) ∨
      .piece p ∈ marksAmong hideNone (w.inside t) t.children := by
  rw [marksIn_hideNone] at h
  rcases List.mem_append.1 h with h | h
  · rcases List.mem_append.1 h with h | h
    · rcases List.mem_append.1 h with h | h
      · obtain ⟨m, display, heq⟩ := w.areQuiet_own t _ h
        cases heq
      · left
        rw [Watch.before] at h
        split at h
        · rename_i q hpiece
          split at h
          · rename_i hw
            obtain rfl : p = q := by simpa using h
            simp only [Bool.and_eq_true, Bool.not_eq_true'] at hw
            exact ⟨Extraction.piece?_node hpiece, hw⟩
          · cases h
        · split at h <;> simp at h
    · exact .inr h
  · rw [Watch.after] at h
    split at h <;> simp at h

theorem piece_node_mem {ts : List Node} (h : .piece p ∈ marksAmong hide w ts) :
    p.node ∈ (subtreesAll ts).map label :=
  (placesOf_marksAmong_sublist ts).subset (List.mem_filterMap.2 ⟨_, h, rfl⟩)

theorem sibling_unique {ts : List Node} (hd : ((subtreesAll ts).map label).Nodup) {u : Node}
    (ht : t ∈ ts) (hu : u ∈ ts) {v : NodeId} (hvt : v ∈ t.labels) (hvu : v ∈ u.labels) : t = u := by
  rw [subtreesAll_eq_flatMap, List.map_flatMap, List.nodup_flatMap] at hd
  by_contra hne
  have : Std.Symm (Function.onFun List.Disjoint fun s : Node => s.subtrees.map label) :=
    ⟨fun _ _ h v hv hv' => h hv' hv⟩
  exact hd.2.forall ht hu hne hvt hvu

/-- Among siblings a piece is noted in the one that it is at or below. -/
theorem piece_mem_of_siblings {ts : List Node} (hd : ((subtreesAll ts).map label).Nodup)
    (ht : t ∈ ts) (hp : p.node ∈ t.labels) (h : .piece p ∈ marksAmong hideNone w ts) :
    .piece p ∈ marksIn hideNone w t := by
  rw [marksAmong_eq_flatMap] at h
  obtain ⟨u, hu, h⟩ := List.mem_flatMap.1 h
  have hpu : p.node ∈ u.labels :=
    (placesOf_marksIn_sublist u).subset (List.mem_filterMap.2 ⟨_, h, rfl⟩)
  rwa [sibling_unique hd ht hu hp hpu]

end

/-! ### Retelling -/

/-- The document `doc'` is `doc` with `shown id` where the place `id` stood.  A place stays, is not
hidden and is told as it is, or what a search notes of what is shown for it is what it noted of it,
told as `tell` says; the places in `noted` are known to be pieces of a block. -/
structure Document.Retold (doc doc' : Document) (hide : NodeId → Bool) (noted : List NodeId)
    (shown : NodeId → List NodeId) (tell : Piece → List Sign) : Prop where
  kids : ∀ p ∈ doc.ids, doc'.kids p = (doc.kids p).flatMap shown
  shell : ∀ id ∈ doc.ids, doc'.shell? id = doc.shell? id
  here : ∀ n ∈ doc.nodes,
    (shown n.label = [n.label] ∧ hide n.label = false ∧
      ∀ p, ({} : Extraction).piece? n = some p → tell p = p.plainly) ∨
    ∀ w : Watch, (n.label ∈ noted → w.reads = true ∧ w.ignores = false) →
      (shown n.label).flatMap (doc'.signsAt w) = (marksIn hide w n).flatMap (Mark.retell tell)

/-- The places in `noted` that are below `t` are noted as pieces. -/
def AreNoted (noted : List NodeId) (w : Watch) (t : Node) : Prop :=
  ∀ id ∈ noted, id ∈ (subtreesAll t.children).map label →
    ∃ p, .piece p ∈ marksAmong hideNone w t.children ∧ p.node = id

section

variable {doc doc' : Document} {hide : NodeId → Bool} {noted : List NodeId}
  {shown : NodeId → List NodeId} {tell : Piece → List Sign} {w : Watch}

theorem Document.WellFormed.nodup_children (h : doc.WellFormed) {t : Node} (ht : t ∈ doc.nodes) :
    ((subtreesAll t.children).map label).Nodup :=
  (nodup_below h.distinct ht).sublist (labels_below_sublist t)

theorem Document.WellFormed.label_not_mem (h : doc.WellFormed) {n : Node} (hn : n ∈ doc.nodes) :
    n.label ∉ (subtreesAll n.children).map label := by
  have hnodup := nodup_below h.distinct hn
  rw [labels, subtrees_eq, List.map_cons, List.nodup_cons] at hnodup
  exact hnodup.1

theorem AreNoted.here {t c : Node} (hnoted : AreNoted noted w t) (h : doc.WellFormed)
    (ht : t ∈ doc.nodes) (hc : c ∈ t.children) (hmem : c.label ∈ noted) :
    w.reads = true ∧ w.ignores = false := by
  obtain ⟨p, hp, hnode⟩ := hnoted _ hmem (List.mem_map_of_mem (mem_subtreesAll_of_mem hc))
  have hself : p.node ∈ c.labels := hnode ▸ List.mem_map_of_mem c.self_mem_subtrees
  rcases piece_mem_marksIn (piece_mem_of_siblings (h.nodup_children ht) hc hself hp) with
    ⟨-, hw⟩ | hbelow
  · exact hw
  · exact absurd (hnode ▸ piece_node_mem hbelow)
      (h.label_not_mem (mem_subtreesAll_children hc ht))

theorem AreNoted.child {t c : Node} (hnoted : AreNoted noted w t) (h : doc.WellFormed)
    (ht : t ∈ doc.nodes) (hc : c ∈ t.children) : AreNoted noted (w.inside c) c := by
  intro id hid hbelow
  have hc' := mem_subtreesAll_children hc ht
  have hin : id ∈ c.labels := (labels_below_sublist c).subset hbelow
  obtain ⟨a, ha, hlabel⟩ := List.mem_map.1 hin
  obtain ⟨p, hp, rfl⟩ := hnoted id hid (List.mem_map.2 ⟨a, mem_subtreesAll.2 ⟨c, hc, ha⟩, hlabel⟩)
  rcases piece_mem_marksIn (piece_mem_of_siblings (h.nodup_children ht) hc hin hp) with
    ⟨hself, -⟩ | hmem
  · exact absurd (hself ▸ hbelow) (h.label_not_mem hc')
  · exact ⟨p, hmem, rfl⟩

theorem AreQuiet.retell {quiet : List Mark} (h : AreQuiet quiet) (tell : Piece → List Sign) :
    quiet.flatMap (Mark.retell tell) = signs quiet :=
  List.flatMap_congr fun k hk => by
    obtain ⟨m, display, rfl⟩ := h k hk
    rfl

theorem Watch.before_retell (w : Watch) {t : Node}
    (htell : ∀ p, ({} : Extraction).piece? t = some p → tell p = p.plainly) :
    (w.before t).flatMap (Mark.retell tell) = signs (w.before t) := by
  rw [before]
  split
  · rename_i p hpiece
    split
    · exact congrArg (· ++ []) (htell p hpiece)
    · rfl
  · split <;> rfl

theorem Watch.after_retell (w : Watch) (t : Node) :
    (w.after t).flatMap (Mark.retell tell) = signs (w.after t) := by
  rw [after]
  split <;> rfl

/-- A search notes of the new document what it noted of the old one, told anew. -/
theorem Document.Retold.signs_eq (R : doc.Retold doc' hide noted shown tell) (h : doc.WellFormed)
    (h' : doc'.WellFormed) (hplain : doc.IsPlain) {t : Node} (ht : t ∈ doc.nodes)
    (hnoted : AreNoted noted w t) :
    (doc'.kids t.label).flatMap (doc'.signsAt w) =
      (marksAmong hide w t.children).flatMap (Mark.retell tell) := by
  induction t using induct generalizing w with
  | step t ih =>
    rw [R.kids _ (List.mem_map_of_mem ht), h.kids_label ht, List.flatMap_map, List.flatMap_assoc,
      marksAmong_eq_flatMap, List.flatMap_assoc]
    refine List.flatMap_congr fun c hc => ?_
    have hc' := mem_subtreesAll_children hc ht
    rcases R.here c hc' with ⟨hshown, hhide, htell⟩ | hgiven
    · have hid : c.label ∈ doc.ids := List.mem_map_of_mem hc'
      obtain ⟨d, hd⟩ : ∃ d, doc'.find? c.label = some d := by
        refine exists_of_mem_ids (shell?_isSome_iff.1 ?_)
        rw [R.shell _ hid, h.shell?_label hc']
        rfl
      obtain ⟨hd', hlabel⟩ := mem_of_find? hd
      have hshell : c.shell = d.shell := by
        have hsame := R.shell _ hid
        rw [h.shell?_label hc', ← hlabel, h'.shell?_label hd'] at hsame
        exact (Option.some.inj hsame).symm
      obtain ⟨hbefore, hown, hafter, hinside⟩ :=
        w.congr hlabel.symm hshell (hplain c hc')
      have hrest := ih c hc hc' (hnoted.child h ht hc)
      rw [hshown, List.flatMap_singleton, signsAt, hd, Option.map_some, Option.getD_some,
        marksIn_hideNone, marksIn_eq, if_neg (by simp [hhide]), if_neg (by simp [hhide])]
      simp only [signs_append, List.flatMap_append]
      rw [w.before_retell htell, w.after_retell, (w.areQuiet_own c).retell, ← hrest, ← hbefore, ← hown, ← hafter, ← hinside,
        ← h'.flatMap_signsAt hd', hlabel]
    · exact hgiven w (hnoted.here h ht hc)

end

end Formulary
