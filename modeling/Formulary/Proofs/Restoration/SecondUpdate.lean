import Formulary.Proofs.Document.Body
import Formulary.Proofs.Restoration.RestoredLines

/-! # Once more

A session that is rendered, has its sources back and is updated again is as it was after the first
rendering (`Session.Rendered.again`).  While the sources are back, the document can be searched as
at first: only strings are running text in its tree (`Session.Rendered.Revived.isReadable`). -/

namespace Formulary

open Formulary.Tree Document

/-- What is true of a tree, and of the children of whatever it is true of, is true all over the
tree. -/
theorem Tree.forall_mem_subtrees {P : Node → Prop} {t : Node} (ht : P t)
    (h : ∀ p ∈ t.subtrees, P p → ∀ c ∈ p.children, P c) : ∀ n ∈ t.subtrees, P n := by
  induction t using induct with
  | step t ih =>
    intro n hn
    rw [subtrees_eq, List.mem_cons] at hn
    rcases hn with rfl | hn
    · exact ht
    · obtain ⟨c, hc, hn⟩ := mem_subtreesAll.1 hn
      exact ih c hc (h t t.self_mem_subtrees ht c hc)
        (fun p hp => h p (mem_subtrees_of_child hc hp)) n hn

theorem Document.mem_nodes_of_mem_root {doc : Document} {n : Node} (hn : n ∈ doc.root.subtrees) :
    n ∈ doc.nodes :=
  subtreesAll_trans hn (mem_subtreesAll_of_mem (List.mem_cons_self ..))

theorem Document.WellFormed.mem_root_of_body {doc : Document} (h : doc.WellFormed)
    {container : Node} (hc : doc.find? doc.body = some container) :
    container ∈ doc.root.subtrees := by
  obtain ⟨hmem, hlabel⟩ := mem_of_find? hc
  obtain ⟨n, hn, heq⟩ : ∃ n ∈ doc.root.subtrees, n.label = doc.body := by
    rw [body_eq_find?]
    cases hfind : (subtreesAll doc.root.children).find? isBody with
    | none => exact ⟨_, doc.root.self_mem_subtrees, rfl⟩
    | some n => exact ⟨n, mem_subtrees_of_below (List.mem_of_find?_eq_some hfind), rfl⟩
  exact eq_of_label_eq h.distinct (mem_nodes_of_mem_root hn) hmem (heq.trans hlabel.symm) ▸ hn

theorem Findings.layout {doc : Document} {sources : List Source} (F : Findings doc sources)
    (h : doc.WellFormed) (hread : doc.root.IsReadable) : Layout doc F.blocks :=
  F.blocks_eq ▸ (hread.subtree (h.mem_root_of_body F.body)).layout_find h F.mem_nodes

namespace Session.Rendered

variable {s s' r : Session} {D : s.Rendered s'} {pairs : List Replacement}

/-- What was found. -/
def findings (D : s.Rendered s') : Findings s.document s.sources where
  container := D.container
  blocks := D.blocks
  finds := D.finds
  body := D.body
  blocks_eq := D.blocks_eq
  survey := D.survey

/-! ### Searching once more -/

namespace Revived

variable (V : D.Revived r pairs)

include V

/-- A place of a document whose sources are back was in it at first, or it is a text. -/
theorem mem_or_text? (h : s.document.WellFormed) (hlayout : Layout s.document D.blocks)
    (hs : Source.AreUsual s.sources) : ∀ n ∈ r.document.root.subtrees,
      (∃ m ∈ s.document.root.subtrees, m.label = n.label) ∨
        ∃ t, r.document.text? n.label = some t := by
  have hr := V.restored.swapped.wellFormed
  have hroot : r.document.root.label = s.document.root.label :=
    V.restored.swapped.root.trans (D.rendering.root.trans (by rw [D.furnishes.root]))
  refine forall_mem_subtrees (.inl ⟨_, s.document.root.self_mem_subtrees, hroot.symm⟩) ?_
  intro p hp hold c hc
  have hp' : p ∈ r.document.nodes := mem_nodes_of_mem_root hp
  have hkid : c.label ∈ r.document.kids p.label := hr.kids_label hp' ▸ List.mem_map_of_mem hc
  rcases hold with ⟨m, hm, hlabel⟩ | ⟨t, ht⟩
  · have hm' : m ∈ s.document.nodes := mem_nodes_of_mem_root hm
    rw [← hlabel, V.kids (List.mem_map_of_mem hm'), h.kids_label hm', List.flatMap_map] at hkid
    obtain ⟨u, hu, hshown⟩ := List.mem_flatMap.1 hkid
    have hu' : u.label ∈ s.document.ids :=
      List.mem_map_of_mem (mem_subtreesAll_children hu hm')
    have hself : c.label ∈ [u.label] → ∃ m ∈ s.document.root.subtrees, m.label = c.label :=
      fun hmem => ⟨u, subtrees_trans (mem_subtrees_of_child hu u.self_mem_subtrees) hm,
        (List.mem_singleton.1 hmem).symm⟩
    by_cases hmem : u.label ∈ D.blocks.flatten.map Piece.node
    · obtain ⟨o, ho, hnode⟩ := List.mem_map.1 (occurrences_map_node D.blocks ▸ hmem)
      rw [← hnode] at hshown
      cases htext : s.document.text? o.piece.node with
      | some t =>
        obtain rfl := hlayout.text_eq ho htext
        obtain ⟨v, hv, heq⟩ := List.mem_map.1 hshown
        obtain ⟨t, ht, -⟩ := V.exists_text? hs ho htext hv
        exact .inr ⟨t, heq ▸ ht⟩
      | none =>
        have hmute : D.furnished.text? o.piece.node = none := by
          rwa [D.furnishes.text? (hnode ▸ hu')]
        rw [D.rendering.mute o ho hmute] at hshown
        split at hshown
        · cases hshown
        · rw [List.map_singleton, V.current_of_mem_ids (hnode ▸ hu'), hnode] at hshown
          exact .inl (hself hshown)
    · rw [V.shown_eq h hs hu' hmem] at hshown
      exact .inl (hself hshown)
  · rw [kids_of_text? ht] at hkid
    cases hkid

/-- Only strings are running text in a document whose sources are back. -/
theorem isReadable (h : s.document.WellFormed) (hread : s.document.root.IsReadable)
    (hs : Source.AreUsual s.sources) : r.document.root.IsReadable := by
  intro n hn htext
  have hr := V.restored.swapped.wellFormed
  have hn' : n ∈ r.document.nodes := mem_nodes_of_mem_root hn
  rcases V.mem_or_text? h (D.findings.layout h hread) hs n hn with ⟨m, hm, hlabel⟩ | ⟨t, ht⟩
  · have hm' : m ∈ s.document.nodes := mem_nodes_of_mem_root hm
    have hshell : n.shell = m.shell := by
      have hboth := V.shell (List.mem_map_of_mem hm' : m.label ∈ s.document.ids)
      rw [h.shell?_label hm', hlabel, hr.shell?_label hn'] at hboth
      exact Option.some.inj hboth
    have hm := hread m hm
    cases n <;> cases m <;> simp_all [Tree.shell, isText, Tree.kind, isElement]
  · have hfind := hr.find?_label hn'
    rw [find?_of_text? ht, Option.some.injEq] at hfind
    rw [← hfind]
    rfl

end Revived

end Session.Rendered

/-! ### Updating once more -/

/-- What a document shows it shows when it comes back. -/
theorem Rendering.swapped {doc₀ doc doc' : Document} {blocks : List Block} {rank : NodeId → Nat}
    {xs : List Insertion} {swap : NodeId → NodeId} {replaced : List Replacement}
    {shown : NodeId → List NodeId} (R : Rendering doc₀ blocks rank xs swap doc replaced shown)
    (hlayout : Layout doc₀ blocks) (h : doc.Swapped doc' []) (hrank : doc'.Ranked rank) :
    Rendering doc₀ blocks rank xs swap doc' replaced shown where
  wellFormed := h.wellFormed
  root := h.root.trans R.root
  fresh := Nat.le_trans R.fresh h.fresh
  ids := fun id hid => h.ids id (R.ids id hid)
  shell := fun id hid => (h.shell id (R.ids id hid)).trans (R.shell id hid)
  ranked := hrank
  kids := fun p hp => by
    rw [h.kids p (R.ids p hp), R.kids p hp]
    exact List.map_id'' (fun _ => rfl) _
  added := fun id hid hnot => by
    by_cases hmem : id ∈ doc.ids
    · obtain ⟨hle, hkids⟩ := R.added id hmem hnot
      exact ⟨hle, by rw [h.kids id hmem, hkids, List.map_nil]⟩
    · obtain ⟨hle, hkids⟩ := h.added id hid hmem
      exact ⟨Nat.le_trans R.fresh hle, hkids⟩
  own := fun u v hv => by
    refine (R.own u v hv).imp_right (Or.imp_right fun ⟨hput, hid, htext⟩ => ?_)
    exact ⟨hput, h.ids v hid, (h.text? hid).trans htext⟩
  text := fun u hu htext => by
    rw [← R.text u hu htext]
    refine List.flatMap_congr fun v hv => ?_
    obtain ⟨p, hp⟩ := hlayout.exists_parent hu
    have hkid : v ∈ doc.kids p := by
      rw [R.kids p (mem_ids_of_mem_kids hp).2]
      exact List.mem_flatMap.2 ⟨_, hp, hv⟩
    rw [Document.symbols, Document.symbols, h.text? (mem_ids_of_mem_kids hkid).1]
  mute := R.mute
  front := fun u hu htext hfront => by
    obtain ⟨n, rest, hshown, htext', hreach⟩ := R.front u hu htext hfront
    exact ⟨n, rest, hshown, (h.text? (mem_ids_of_text? htext')).trans htext', hreach⟩
  untouched := R.untouched
  other := R.other

namespace Session.Rendered

variable {s s' r : Session}

/-- A session stays rendered when its document comes back. -/
def again (D : s.Rendered s') {doc' : Document} (hlayout : Layout s.document D.blocks)
    (h : s'.document.Swapped doc' []) (hrank : doc'.Ranked D.furnished.position) :
    s.Rendered { s' with document := doc' } :=
  { D with rendering := D.rendering.swapped (D.furnishes.layout hlayout) h hrank }

theorem exists_restored (D : s.Rendered s') (h : s.document.WellFormed)
    (hread : s.document.root.IsReadable) (hs : Source.AreUsual s.sources) :
    ∃ r pairs, s'.removeFromDocument true = .ok r ∧ D.Revived r pairs := by
  have hsettled := D.settled_of_layout h (D.findings.layout h hread) hs
  obtain ⟨r, pairs, hremove, hroots, hrestored⟩ := hsettled.exists_restored
  exact ⟨r, pairs, hremove, hsettled, hrestored, hroots⟩

theorem Revived.exists_update {D : s.Rendered s'} {pairs : List Replacement}
    (V : D.Revived r pairs) (h : s.document.WellFormed) (hread : s.document.root.IsReadable) :
    ∃ r', r.update = .ok r' ∧ Nonempty (s.Rendered r') := by
  obtain ⟨doc', hupdate, hswapped, hrank⟩ := V.restored.exists_update V.settled V.roots
  exact ⟨_, hupdate, ⟨D.again (D.findings.layout h hread) hswapped hrank⟩⟩

end Session.Rendered

end Formulary
