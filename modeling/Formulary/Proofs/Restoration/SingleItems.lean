import Formulary.Proofs.Restoration.RestoredLines

/-! # Sources come back in any order

The sources of a rendered session can be restored one by one (`Session.restoreEach`).  Each step
exchanges one typeset form and leaves the others where they are (`Session.RolledBack.step`), so what
is restored does not depend on the order, and with all sources back the tree is the one that
`Session.removeFromDocument` leaves (`render_restoreEach`). -/

namespace Formulary

open Formulary.Tree Document

/-! ### One by one -/

/-- The session with the items at some indices taken back in turn, their sources restored. -/
def Session.restoreEach (s : Session) : List Nat → Except Fault Session
  | [] => .ok s
  | i :: rest => do
    let s ← s.setItemStage i .typeset true
    s.restoreEach rest

/-- The item at an index is in the document `t` too, its typeset form where it was. -/
def Session.Keeps (s t : Session) (i : Nat) : Prop :=
  ∃ item root p, s.items[i]? = some item ∧ t.items[i]? = some item ∧ item.stage = .inserted ∧
    item.content = some root ∧ s.document.parent? root = some p ∧ t.document.parent? root = some p

theorem Session.item_natCast {s : Session} {i : Nat} {item : Item} (h : s.items[i]? = some item) :
    s.item i = .ok (i, item) := by
  obtain ⟨hi, -⟩ := List.getElem?_eq_some_iff.1 h
  simp only [Session.item, Text.indexIn?_natCast hi, h]

/-! ### Items of a settled session -/

section

variable {s : Session} {rank : NodeId → Nat} {roots : List NodeId}

theorem Session.IsSettled.index_unique (h : s.IsSettled rank roots) {i j : Nat} {a b : Item}
    (ha : s.items[i]? = some a) (hb : s.items[j]? = some b) (heq : a.content = b.content) :
    i = j := by
  obtain ⟨root, hi, hseated⟩ := exists_getElem? h.seated ha
  obtain ⟨root', hj, hseated'⟩ := exists_getElem? h.seated hb
  obtain rfl : root = root' :=
    Option.some.inj (hseated.content.symm.trans (heq.trans hseated'.content))
  exact (List.getElem?_inj (List.getElem?_eq_some_iff.1 hi).1 h.distinct).1 (hi.trans hj.symm)

theorem Session.IsSettled.item_unique (h : s.IsSettled rank roots) {a b : Item} (ha : a ∈ s.items)
    (hb : b ∈ s.items) (heq : a.content = b.content) : a = b := by
  obtain ⟨i, hi⟩ := List.mem_iff_getElem?.1 ha
  obtain ⟨j, hj⟩ := List.mem_iff_getElem?.1 hb
  obtain rfl := h.index_unique hi hj heq
  exact Option.some.inj (hi.symm.trans hj)

theorem Session.IsSettled.element_unique (h : s.IsSettled rank roots) {i j : Nat} {a b : Item}
    {m : NodeId} (ha : s.items[i]? = some a) (hb : s.items[j]? = some b) (hm : a.math = .node m)
    (hm' : b.math = .node m) : i = j := by
  obtain ⟨hi, rfl⟩ := List.getElem?_eq_some_iff.1 ha
  obtain ⟨hj, rfl⟩ := List.getElem?_eq_some_iff.1 hb
  have hpairwise := List.pairwise_iff_getElem.1 h.elements
  rcases Nat.lt_trichotomy i j with hlt | heq | hlt
  · exact absurd hm' (hpairwise i j hi hj hlt m hm)
  · exact heq
  · exact absurd hm (hpairwise j i hj hi hlt m hm')

/-! ### Sources that are back -/

/-- The source of an item is in the place `x` of the document `doc'`, where its typeset form `root`
was in `doc`. -/
structure Item.Returned (doc doc' : Document) (item : Item) (root x : NodeId) : Prop where
  content : item.content = some root
  source : item.HasSource doc' x
  ids : x ∈ doc'.ids
  unused : ∀ q, x ∉ doc.kids q

theorem Item.Returned.swapped {doc doc' doc'' : Document} {pairs : List Replacement} {item : Item}
    {root x : NodeId} (h : item.Returned doc doc' root x) (hswapped : doc'.Swapped doc'' pairs) :
    item.Returned doc doc'' root x where
  content := h.content
  source := h.source.swapped hswapped h.ids
  ids := hswapped.ids x h.ids
  unused := h.unused

/-- In the document `doc'` the sources of some items of a session are back, of which `pairs` says
where they stand. -/
structure Session.BringsBack (s : Session) (doc' : Document) (pairs : List Replacement) : Prop where
  swapped : s.document.Swapped doc' pairs
  sources : ∀ pair ∈ pairs, ∃ item ∈ s.items, item.Returned s.document doc' pair.1 pair.2
  distinct : (pairs.map Prod.fst).Nodup

variable {a b : Document} {pairs pairs' : List Replacement}

theorem Session.BringsBack.not_mem_fst (h : s.BringsBack a pairs)
    (hsettled : s.IsSettled rank roots) :
    ∀ x ∈ pairs.map Prod.snd, x ∉ pairs.map Prod.fst := by
  intro x hx hroot
  obtain ⟨pair, hpair, rfl⟩ := List.mem_map.1 hx
  obtain ⟨other, hother, heq⟩ := List.mem_map.1 hroot
  obtain ⟨item, -, hreturned⟩ := h.sources pair hpair
  obtain ⟨item', hitem', hreturned'⟩ := h.sources other hother
  obtain ⟨root, -, hseated⟩ := exists_right hsettled.seated hitem'
  obtain rfl : other.1 = root := Option.some.inj (hreturned'.content.symm.trans hseated.content)
  obtain ⟨p, hp, -⟩ := hseated.host
  exact hreturned.unused p (heq ▸ hp)

/-- The tree only depends on which sources are back. -/
theorem Session.BringsBack.fragment_eq (hsettled : s.IsSettled rank roots)
    (h : s.BringsBack a pairs) (h' : s.BringsBack b pairs')
    (hfst : ∀ root, root ∈ pairs.map Prod.fst ↔ root ∈ pairs'.map Prod.fst) :
    a.root.fragment = b.root.fragment := by
  refine h.swapped.fragment_eq h'.swapped fun p c hc => ?_
  by_cases hmem : c ∈ pairs.map Prod.fst
  · have hmem' := (hfst c).1 hmem
    obtain ⟨pair, hpair, rfl⟩ := List.mem_map.1 hmem
    obtain ⟨pair', hpair', heq⟩ := List.mem_map.1 hmem'
    rw [current_of_mem h.distinct (h.not_mem_fst hsettled) hpair, ← heq,
      current_of_mem h'.distinct (h'.not_mem_fst hsettled) hpair']
    obtain ⟨item, hitem, hreturned⟩ := h.sources pair hpair
    obtain ⟨item', hitem', hreturned'⟩ := h'.sources pair' hpair'
    obtain rfl : item = item' := hsettled.item_unique hitem hitem'
      (hreturned.content.trans (heq ▸ hreturned'.content.symm))
    obtain ⟨root, -, hseated⟩ := exists_right hsettled.seated hitem
    exact hreturned.source.sameOrText hreturned'.source fun m hm => (hseated.loose m hm).mem_ids
  · rw [current_of_not_mem hmem, current_of_not_mem (mt (hfst c).2 hmem)]
    exact .inl ⟨rfl, (mem_ids_of_mem_kids hc).1⟩

theorem Session.Restored.bringsBack {r : Session} (hsettled : s.IsSettled rank roots)
    (h : s.Restored r rank pairs) (hfst : pairs.map Prod.fst = roots) :
    s.BringsBack r.document pairs where
  swapped := h.swapped
  sources := fun pair hpair => by
    obtain ⟨item, hitem, hseated, hunseated⟩ :=
      exists_left (h.seated_and_unseated hsettled hfst) hpair
    obtain ⟨p, hp, -⟩ := hunseated.host
    exact ⟨item, hitem, hseated.content, hunseated.source, (mem_ids_of_mem_kids hp).1,
      h.unused _ (List.mem_map_of_mem hpair)⟩
  distinct := hfst ▸ hsettled.distinct

/-! ### Steps -/

/-- The document and the items of a session after those at the indices in `order` were taken back:
`pairs` says where the sources stand, one pair for each index. -/
structure Session.RolledBack (s : Session) (doc : Document) (items : List Item)
    (rank : NodeId → Nat) (order : List Nat) (pairs : List Replacement) : Prop where
  swapped : s.document.Swapped doc pairs
  ranked : doc.Ranked rank
  kept : ∀ i, i ∉ order → items[i]? = s.items[i]?
  sources : List.Forall₂ (fun i pair => ∃ item, s.items[i]? = some item ∧
    item.Returned s.document doc pair.1 pair.2 ∧
    (pair.2 ∈ s.document.ids → item.math = .node pair.2)) order pairs
  distinct : (pairs.map Prod.fst).Nodup

namespace Session.RolledBack

variable {doc : Document} {items : List Item} {order done : List Nat} {i : Nat} {item : Item}
  {root : NodeId}

theorem refl (hsettled : s.IsSettled rank roots) :
    s.RolledBack s.document s.items rank [] [] where
  swapped := .refl hsettled.wellFormed
  ranked := hsettled.ranked
  kept := fun _ _ => rfl
  sources := .nil
  distinct := .nil

theorem bringsBack (h : s.RolledBack doc items rank order pairs) : s.BringsBack doc pairs where
  swapped := h.swapped
  sources := fun pair hpair => by
    obtain ⟨i, -, item, hi, hreturned, -⟩ := exists_left h.sources hpair
    exact ⟨item, List.mem_of_getElem? hi, hreturned⟩
  distinct := h.distinct

theorem mem_fst_iff (h : s.RolledBack doc items rank order pairs) :
    root ∈ pairs.map Prod.fst ↔
      ∃ i ∈ order, ∃ item, s.items[i]? = some item ∧ item.content = some root := by
  constructor
  · intro hroot
    obtain ⟨pair, hpair, rfl⟩ := List.mem_map.1 hroot
    obtain ⟨i, hi, item, hitem, hreturned, -⟩ := exists_left h.sources hpair
    exact ⟨i, hi, item, hitem, hreturned.content⟩
  · rintro ⟨i, hi, item, hitem, hcontent⟩
    obtain ⟨pair, hpair, item', hitem', hreturned, -⟩ := exists_right h.sources hi
    obtain rfl : item = item' := Option.some.inj (hitem.symm.trans hitem')
    exact List.mem_map.2 ⟨pair, hpair, Option.some.inj (hreturned.content.symm.trans hcontent)⟩

theorem not_mem_fst (h : s.RolledBack doc items rank order pairs)
    (hsettled : s.IsSettled rank roots) (hi : i ∉ order) (hitem : s.items[i]? = some item)
    (hcontent : item.content = some root) : root ∉ pairs.map Prod.fst := by
  intro hroot
  obtain ⟨j, hj, item', hitem', hcontent'⟩ := h.mem_fst_iff.1 hroot
  exact hi (hsettled.index_unique hitem hitem' (hcontent.trans hcontent'.symm) ▸ hj)

theorem seated (h : s.RolledBack doc items rank order pairs) (hsettled : s.IsSettled rank roots)
    (hi : i ∉ order) (hitem : s.items[i]? = some item)
    (hseated : Item.Seated s.document rank item root) : Item.Seated doc rank item root := by
  refine hseated.swapped hsettled.wellFormed h.swapped
    (h.not_mem_fst hsettled hi hitem hseated.content) fun m hm hsnd => ?_
  obtain ⟨pair, hpair, rfl⟩ := List.mem_map.1 hsnd
  obtain ⟨j, hj, item', hitem', -, hold⟩ := exists_left h.sources hpair
  have hm' := hold (hseated.loose _ hm).mem_ids
  exact hi (hsettled.element_unique hitem hitem' hm hm' ▸ hj)

/-- Its typeset form has the same parent as before. -/
theorem keeps (h : s.RolledBack doc items rank order pairs) (hsettled : s.IsSettled rank roots)
    (hi : i ∉ order) (hlt : i < s.items.length) :
    s.Keeps { s with document := doc, items } i := by
  have hitem := List.getElem?_eq_getElem hlt
  obtain ⟨root, -, hseated⟩ := exists_getElem? hsettled.seated hitem
  obtain ⟨p, hp, -⟩ := hseated.host
  have hp' := h.swapped.mem_kids hp (h.not_mem_fst hsettled hi hitem hseated.content)
  exact ⟨_, root, p, hitem, (h.kept i hi).trans hitem, hseated.stage, hseated.content,
    hsettled.wellFormed.parent?_eq hp, h.swapped.wellFormed.parent?_eq hp'⟩

/-- One more item is taken back. -/
theorem step (h : s.RolledBack doc items rank order pairs) (hsettled : s.IsSettled rank roots)
    (hi : i ∉ order) (hlt : i < s.items.length) :
    ∃ doc' items' pair,
      ({ s with document := doc, items } : Session).setItemStage i .typeset true =
        .ok { s with document := doc', items := items' } ∧
      s.RolledBack doc' items' rank (order ++ [i]) (pairs ++ [pair]) := by
  have hitem := List.getElem?_eq_getElem hlt
  obtain ⟨root, -, hseated⟩ := exists_getElem? hsettled.seated hitem
  have hkept : items[i]? = some s.items[i] := (h.kept i hi).trans hitem
  obtain ⟨doc', x, hset, hunseated, hswapped, hranked, -, hold⟩ :=
    (h.seated hsettled hi hitem hseated).exists_restored h.swapped.wellFormed h.ranked
  -- a source that was in the document before is an element, and that stood beside it
  have hunused : ∀ q, x ∉ s.document.kids q := fun q hq => by
    have hmath := hold (h.swapped.ids x (mem_ids_of_mem_kids hq).1)
    exact (hsettled.wellFormed.isLoose_iff.1 (hseated.loose x hmath)).2.2 q hq
  obtain ⟨p, hp, -⟩ := hunseated.host
  refine ⟨doc', items.set i (s.items[i].restored x), (root, x), ?_, h.swapped.trans hswapped,
    hranked, fun j hj => ?_, ?_, ?_⟩
  · have hget : ({ s with document := doc, items } : Session).item i = .ok (i, s.items[i]) :=
      Session.item_natCast hkept
    simp only [Session.setItemStage, hget, hset, bind, Except.bind, pure, Except.pure,
      Session.putItem]
  · rw [List.mem_append, List.mem_singleton, not_or] at hj
    rw [List.getElem?_set_ne (Ne.symm hj.2), h.kept j hj.1]
  · refine List.rel_append (h.sources.imp fun j pair ⟨item, hj, hreturned, hnode⟩ =>
      ⟨item, hj, hreturned.swapped hswapped, hnode⟩) (.cons ⟨_, hitem, ?_, fun hx => ?_⟩ .nil)
    · exact ⟨hseated.content, hunseated.source, (mem_ids_of_mem_kids hp).1, hunused⟩
    · exact hold (h.swapped.ids x hx)
  · rw [List.map_append, List.map_singleton, ← List.concat_eq_append]
    exact h.distinct.concat (h.not_mem_fst hsettled hi hitem hseated.content)

/-- Any number of items is taken back, in any order. -/
theorem run (h : s.RolledBack doc items rank done pairs) (hsettled : s.IsSettled rank roots)
    (hnodup : (done ++ order).Nodup) (hlt : ∀ i ∈ order, i < s.items.length) :
    ∃ doc' items' pairs',
      ({ s with document := doc, items } : Session).restoreEach order =
        .ok { s with document := doc', items := items' } ∧
      s.RolledBack doc' items' rank (done ++ order) pairs' := by
  induction order generalizing doc items done pairs with
  | nil => exact ⟨doc, items, pairs, rfl, (List.append_nil done).symm ▸ h⟩
  | cons i order ih =>
    have hi : i ∉ done := fun hmem =>
      (List.nodup_append.1 hnodup).2.2 i hmem i (List.mem_cons_self ..) rfl
    obtain ⟨doc₁, items₁, pair, hset, h₁⟩ := h.step hsettled hi (hlt i (List.mem_cons_self ..))
    rw [← List.singleton_append, ← List.append_assoc] at hnodup
    obtain ⟨doc₂, items₂, pairs₂, hrun, h₂⟩ := ih h₁ hnodup fun j hj =>
      hlt j (List.mem_cons_of_mem _ hj)
    refine ⟨doc₂, items₂, pairs₂, ?_, ?_⟩
    · simp only [Session.restoreEach, hset, bind, Except.bind, hrun]
    · rwa [List.append_assoc, List.singleton_append] at h₂

end Session.RolledBack

end

/-! ### Any order -/

/-- The items of a rendered session are taken back one by one.  After any number of them the others
are in the document as they were, in whatever order that was done the tree is the same, and with all
sources back it is the tree that restoring the session leaves. -/
theorem render_restoreEach (doc : Document) (hdoc : doc.WellFormed) (hplain : doc.IsPlain)
    (sources : List Source) (hs : Source.AreUsual sources) :
    ∃ s r, ({ document := doc, sources } : Session).render = .ok s ∧
      s.removeFromDocument true = .ok r ∧
      ∀ order : List Nat, order.Nodup → (∀ i ∈ order, i < s.items.length) →
        ∃ t, s.restoreEach order = .ok t ∧
          (∀ i < s.items.length, i ∉ order → s.Keeps t i) ∧
          (∀ order', order'.Perm order → ∃ t', s.restoreEach order' = .ok t' ∧
            t'.document.root.fragment = t.document.root.fragment) ∧
          ((∀ i < s.items.length, i ∈ order) →
            t.document.root.fragment = r.document.root.fragment) := by
  have hfresh : Session.IsFresh { document := doc, sources } := ⟨hs, rfl, rfl, rfl, rfl, rfl⟩
  obtain ⟨s, hrender, ⟨D⟩⟩ := render_rendered hdoc hplain hfresh
  have hsettled := D.settled hdoc hplain hs
  obtain ⟨r, pairs, hremove, hfst, hrestored⟩ := hsettled.exists_restored
  refine ⟨s, r, hrender, hremove, fun order hnodup hlt => ?_⟩
  have hstart := Session.RolledBack.refl hsettled
  obtain ⟨doc₁, items₁, pairs₁, hrun, h₁⟩ := hstart.run hsettled hnodup hlt
  refine ⟨_, hrun, fun i hi hnot => h₁.keeps hsettled hnot hi, fun order' hperm => ?_,
    fun hall => ?_⟩
  · have hnodup' : ([] ++ order').Nodup := hperm.nodup_iff.2 hnodup
    obtain ⟨doc₂, items₂, pairs₂, hrun₂, h₂⟩ := hstart.run hsettled hnodup' fun i hi =>
      hlt i (hperm.mem_iff.1 hi)
    refine ⟨_, hrun₂, h₂.bringsBack.fragment_eq hsettled h₁.bringsBack fun root => ?_⟩
    rw [h₂.mem_fst_iff, h₁.mem_fst_iff]
    simp only [List.nil_append, hperm.mem_iff]
  · refine h₁.bringsBack.fragment_eq hsettled (hrestored.bringsBack hsettled hfst) fun root => ?_
    rw [h₁.mem_fst_iff, hfst]
    constructor
    · rintro ⟨i, -, item, hitem, hcontent⟩
      obtain ⟨root', hroot', hseated⟩ := exists_getElem? hsettled.seated hitem
      obtain rfl : root = root' := Option.some.inj (hcontent.symm.trans hseated.content)
      exact List.mem_of_getElem? hroot'
    · intro hroot
      obtain ⟨item, hmem, hseated⟩ := exists_left hsettled.seated hroot
      obtain ⟨i, hi⟩ := List.mem_iff_getElem?.1 hmem
      exact ⟨i, hall i (List.getElem?_eq_some_iff.1 hi).1, item, hi, hseated.content⟩

/-- The last item is taken back first. -/
theorem render_restoreEach_mixedFormulas :
    (mixedFormulas.WellFormed ∧ mixedFormulas.IsPlain ∧ Source.AreUsual [.tex, .mathml]) ∧
    ∃ s r t, ({ document := mixedFormulas, sources := [.tex, .mathml] } : Session).render = .ok s ∧
      s.removeFromDocument true = .ok r ∧
      s.restoreEach (List.range s.items.length).reverse = .ok t ∧
      t.document.root.fragment = r.document.root.fragment := by
  have hs : Source.AreUsual [.tex, .mathml] := .inr (.inr (.inl rfl))
  obtain ⟨s, r, hrender, hremove, horder⟩ :=
    render_restoreEach mixedFormulas (wellFormed_ofFragments _) isPlain_mixedFormulas _ hs
  obtain ⟨t, hrestore, -, -, hall⟩ := horder (List.range s.items.length).reverse
    (List.nodup_reverse.2 List.nodup_range) fun i hi => List.mem_range.1 (List.mem_reverse.1 hi)
  exact ⟨⟨wellFormed_ofFragments _, isPlain_mixedFormulas, hs⟩, s, r, t, hrender, hremove, hrestore,
    hall fun i hi => List.mem_reverse.2 (List.mem_range.2 hi)⟩

end Formulary
