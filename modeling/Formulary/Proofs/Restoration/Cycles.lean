import Formulary.Proofs.Session.RenderedSession
import Formulary.Proofs.Update.Exchanges

/-! # Restoring and updating again

`Session.removeFromDocument` takes the items in turn back to their sources (`removeAll_restored`),
and the update that follows goes through them from the last to the first, so that every exchange is
taken back (`run_updated`).  What was the document is the document again, and a session that goes
to and fro any number of times shows the same two trees (`alternate_stable`). -/

namespace Formulary

open Formulary.Tree Document

section

variable {doc : Document} {rank : NodeId → Nat} {items : List Item}

/-! ### All items -/

/-- The sources of the items are back: `pairs` says which place each typeset form gave way to.
These places are new in the document, or elements that the items were given as. -/
structure AreRestored (doc doc' : Document) (rank : NodeId → Nat) (items : List Item)
    (pairs : List Replacement) : Prop where
  swapped : doc.Swapped doc' pairs
  ranked : doc'.Ranked rank
  unseated : List.Forall₂ (fun item pair => Item.Unseated doc' rank item pair.1 pair.2) items pairs
  distinct : (pairs.map Prod.snd).Nodup
  unused : ∀ x ∈ pairs.map Prod.snd, ∀ q, x ∉ doc.kids q
  old : ∀ x ∈ pairs.map Prod.snd, x ∈ doc.ids → ∃ item ∈ items, item.math = .node x

theorem AreRestored.cons {doc₁ doc₂ : Document} {item : Item} {root x : NodeId}
    {pairs : List Replacement} (h : AreRestored doc₁ doc₂ rank items pairs) (hdoc : doc.WellFormed)
    (hseated : item.Seated doc rank root) (hunseated : item.Unseated doc₁ rank root x)
    (hswapped : doc.Swapped doc₁ [(root, x)]) (hx : ∀ q, x ∉ doc.kids q)
    (hnew : x ∈ doc.ids → item.math = .node x)
    (hothers : List.Forall₂ (Item.Seated doc rank) items (pairs.map Prod.fst)) :
    AreRestored doc doc₂ rank (item :: items) ((root, x) :: pairs) := by
  obtain ⟨p, hp, -⟩ := hseated.host
  obtain ⟨q, hq, -⟩ := hunseated.host
  have hxpairs : x ∉ pairs.map Prod.snd := fun hmem => h.unused x hmem q hq
  have hrootpairs : root ∉ pairs.map Prod.snd := fun hmem => by
    obtain ⟨other, hother, hmath⟩ := h.old root hmem (hswapped.ids root (mem_ids_of_mem_kids hp).1)
    obtain ⟨r, -, hseated'⟩ := exists_right hothers hother
    exact (hdoc.isLoose_iff.1 (hseated'.loose root hmath)).2.2 p hp
  have hxroots : x ∉ pairs.map Prod.fst := fun hmem => by
    obtain ⟨other, -, hseated'⟩ := exists_left hothers hmem
    obtain ⟨r, hr, -⟩ := hseated'.host
    exact hx r hr
  exact {
    swapped := hswapped.trans h.swapped
    ranked := h.ranked
    unseated := .cons (hunseated.swapped hswapped.wellFormed h.swapped hxroots hrootpairs) h.unseated
    distinct := List.nodup_cons.2 ⟨hxpairs, h.distinct⟩
    unused := by
      rintro y hy r hr
      rcases List.mem_cons.1 hy with rfl | hy
      · exact hx r hr
      · refine h.unused y hy r (hswapped.mem_kids hr fun hmem => ?_)
        have heq : y = root := List.mem_singleton.1 hmem
        exact hrootpairs (heq ▸ hy)
    old := by
      intro y hy hid
      rcases List.mem_cons.1 hy with rfl | hy
      · exact ⟨item, List.mem_cons_self .., hnew hid⟩
      · obtain ⟨other, hother, hmath⟩ := h.old y hy (hswapped.ids y hid)
        exact ⟨other, List.mem_cons_of_mem _ hother, hmath⟩ }

/-- Restoring goes through the items in turn. -/
theorem removeAll_restored (hdoc : doc.WellFormed) (hrank : doc.Ranked rank)
    {roots : List NodeId} (h : List.Forall₂ (Item.Seated doc rank) items roots)
    (hroots : roots.Nodup)
    (helements : items.Pairwise fun a b => ∀ m, a.math = .node m → b.math ≠ .node m) :
    ∃ doc' pairs, pairs.map Prod.fst = roots ∧
      Session.removeAll true doc items = .ok (doc',
        List.zipWith (fun (item : Item) (pair : Replacement) => item.restored pair.2) items pairs) ∧
      AreRestored doc doc' rank items pairs := by
  induction items generalizing doc roots with
  | nil =>
    cases h
    exact ⟨doc, [], rfl, rfl, .refl hdoc, hrank, .nil, .nil, by simp, by simp⟩
  | cons item items ih =>
    obtain ⟨root, roots, hseated, hrest, rfl⟩ := List.forall₂_cons_left_iff.1 h
    obtain ⟨hroot, hroots⟩ := List.nodup_cons.1 hroots
    obtain ⟨helement, helements⟩ := List.pairwise_cons.1 helements
    obtain ⟨doc₁, x, hstep, hunseated, hswapped, hrank₁, hx, hnew⟩ :=
      hseated.exists_restored hdoc hrank
    -- the other typeset forms are still seated
    have hrest₁ : List.Forall₂ (Item.Seated doc₁ rank) items roots := by
      refine forall₂_imp_mem hrest fun other hother r hr hseated' => ?_
      refine hseated'.swapped hdoc hswapped (fun hmem => ?_) fun m hm hmem => ?_
      · have heq : r = root := List.mem_singleton.1 hmem
        exact hroot (heq ▸ hr)
      · obtain rfl := List.mem_singleton.1 hmem
        exact helement other hother m (hnew (hseated'.loose m hm).mem_ids) hm
    obtain ⟨doc₂, pairs, rfl, hremove, hrestored⟩ :=
      ih hswapped.wellFormed hrank₁ hrest₁ hroots helements
    refine ⟨doc₂, (root, x) :: pairs, rfl, ?_,
      hrestored.cons hdoc hseated hunseated hswapped hx hnew hrest⟩
    simp only [Session.removeAll, if_pos hseated.stage, hstep, bind, Except.bind, hremove]
    rfl

theorem step_restored {u : Session.Updating} (hreplaced : u.replaced = []) {item : Item}
    {x : NodeId} {doc' : Document}
    (hupdate : (item.restored x).update u.session.document = .ok (doc', item, [])) :
    u.step (item.restored x) = .ok {
      session := { u.session with document := doc' }
      replaced := []
      done := item :: u.done } := by
  have hrank : ¬(item.restored x).stage.rank < Stage.typeset.rank := by
    show ¬Stage.typeset.rank < Stage.typeset.rank
    decide
  have hresolved : (item.restored x).isResolved = true := rfl
  have hmoved : { item.restored x with
      start := Session.moved [] (item.restored x).start
      stop := Session.moved [] (item.restored x).stop } = item.restored x := rfl
  simp only [Session.Updating.step, if_neg hrank, hresolved, if_true, hreplaced, hmoved, hupdate,
    bind, Except.bind, pure, Except.pure, List.nil_append]

/-- Updating goes through the sources that were restored, and every exchange is taken back. -/
theorem run_updated {pairs : List Replacement} {u : Session.Updating}
    (hdoc : u.session.document.WellFormed) (hrank : u.session.document.Ranked rank)
    (hreplaced : u.replaced = [])
    (h : List.Forall₂ (fun item pair => item.Names pair.1 ∧
      Item.Unseated u.session.document rank item pair.1 pair.2) items pairs)
    (hfst : (pairs.map Prod.fst).Nodup) (hsnd : (pairs.map Prod.snd).Nodup) :
    ∃ doc', u.run (List.zipWith (fun (item : Item) (pair : Replacement) => item.restored pair.2)
        items pairs) = .ok {
          session := { u.session with document := doc' }
          replaced := []
          done := items.reverse ++ u.done } ∧
      u.session.document.Swapped doc' (pairs.map Prod.swap) ∧ doc'.Ranked rank := by
  induction items generalizing pairs u with
  | nil =>
    cases h
    refine ⟨u.session.document, ?_, .refl hdoc, hrank⟩
    rw [List.zipWith_nil_left, Session.Updating.run, List.reverse_nil, List.nil_append, ← hreplaced]
  | cons item items ih =>
    obtain ⟨⟨root, x⟩, pairs, ⟨hnames, hunseated⟩, hrest, rfl⟩ := List.forall₂_cons_left_iff.1 h
    obtain ⟨hroot, hfst⟩ := List.nodup_cons.1 hfst
    obtain ⟨hx, hsnd⟩ := List.nodup_cons.1 hsnd
    obtain ⟨doc₁, hupdate, hswapped₁, hrank₁⟩ := hunseated.exists_update hdoc hrank hnames
    obtain ⟨doc₂, hrun, hswapped₂, hrank₂⟩ := ih (u := {
        session := { u.session with document := doc₁ }
        replaced := []
        done := item :: u.done }) hswapped₁.wellFormed hrank₁ rfl
      (forall₂_imp_mem hrest fun other _ pair hpair hother => ⟨hother.1, by
        refine hother.2.swapped hdoc hswapped₁ (fun hmem => ?_) fun hmem => ?_
        · have heq : pair.2 = x := List.mem_singleton.1 hmem
          exact hx (List.mem_map.2 ⟨pair, hpair, heq⟩)
        · have heq : pair.1 = root := List.mem_singleton.1 hmem
          exact hroot (List.mem_map.2 ⟨pair, hpair, heq⟩)⟩) hfst hsnd
    refine ⟨doc₂, ?_, hswapped₁.trans hswapped₂, hrank₂⟩
    rw [List.zipWith_cons_cons, Session.Updating.run, step_restored hreplaced hupdate]
    simp only [bind, Except.bind, hrun, List.reverse_cons, List.append_assoc, List.singleton_append]

end

/-! ### There and back -/

/-- A session all of whose typeset forms are in the document. -/
structure Session.IsSettled (s : Session) (rank : NodeId → Nat) (roots : List NodeId) : Prop where
  wellFormed : s.document.WellFormed
  ranked : s.document.Ranked rank
  seated : List.Forall₂ (Item.Seated s.document rank) s.items roots
  distinct : roots.Nodup
  elements : s.items.Pairwise fun a b => ∀ m, a.math = .node m → b.math ≠ .node m
  finished : s.finished = [.discover, .compile, .typeset, .update]
  progress : s.progress = .rendered

/-- The session `r` is `s` with its sources back in the document, of which `pairs` says where they
stand. -/
structure Session.Restored (s r : Session) (rank : NodeId → Nat) (pairs : List Replacement) :
    Prop where
  session : r = { s with
    document := r.document
    items := List.zipWith (fun (item : Item) (pair : Replacement) => item.restored pair.2) s.items
      pairs
    finished := [.discover, .compile, .typeset]
    progress := .removed }
  swapped : s.document.Swapped r.document pairs
  ranked : r.document.Ranked rank
  unseated : List.Forall₂ (fun item pair => Item.Unseated r.document rank item pair.1 pair.2)
    s.items pairs
  distinct : (pairs.map Prod.snd).Nodup
  unused : ∀ x ∈ pairs.map Prod.snd, ∀ q, x ∉ s.document.kids q
  old : ∀ x ∈ pairs.map Prod.snd, x ∈ s.document.ids → ∃ item ∈ s.items, item.math = .node x

section

variable {s r : Session} {rank : NodeId → Nat} {roots : List NodeId}

theorem Session.IsSettled.exists_restored (h : s.IsSettled rank roots) :
    ∃ r pairs, s.removeFromDocument true = .ok r ∧ pairs.map Prod.fst = roots ∧
      s.Restored r rank pairs := by
  obtain ⟨doc', pairs, hfst, hremove, hrestored⟩ :=
    removeAll_restored h.wellFormed h.ranked h.seated h.distinct h.elements
  have hupdate : Phase.update ∈ s.finished := by simp [h.finished]
  have hfilter : s.finished.filter (· ≠ .update) = [.discover, .compile, .typeset] := by
    rw [h.finished]
    rfl
  refine ⟨{ s with
    document := doc'
    items := List.zipWith (fun (item : Item) (pair : Replacement) => item.restored pair.2) s.items
      pairs
    finished := [.discover, .compile, .typeset]
    progress := .removed }, pairs, ?_, hfst, rfl, hrestored.swapped, hrestored.ranked,
    hrestored.unseated, hrestored.distinct, hrestored.unused, hrestored.old⟩
  rw [removeFromDocument, if_pos hupdate, hremove, ← hfilter]
  rfl

theorem Session.Restored.seated_and_unseated {pairs : List Replacement}
    (h : s.Restored r rank pairs) (hsettled : s.IsSettled rank roots)
    (hfst : pairs.map Prod.fst = roots) :
    List.Forall₂ (fun item pair => Item.Seated s.document rank item pair.1 ∧
      Item.Unseated r.document rank item pair.1 pair.2) s.items pairs := by
  have hseated := hsettled.seated
  rw [← hfst, List.forall₂_map_right_iff] at hseated
  exact forall₂_and hseated h.unseated

theorem Session.Restored.exists_update {pairs : List Replacement} (h : s.Restored r rank pairs)
    (hsettled : s.IsSettled rank roots) (hfst : pairs.map Prod.fst = roots) :
    ∃ doc', r.update = .ok { s with document := doc' } ∧ s.document.Swapped doc' [] ∧
      doc'.Ranked rank := by
  have hlists : List.Forall₂ (fun item pair => item.Names pair.1 ∧
      Item.Unseated r.document rank item pair.1 pair.2) s.items pairs :=
    (h.seated_and_unseated hsettled hfst).imp fun _ _ ⟨hseat, hunseat⟩ => ⟨hseat.toNames, hunseat⟩
  have hdoc : ({ session := r } : Session.Updating).session.document.WellFormed :=
    h.swapped.wellFormed
  obtain ⟨doc', hrun, hswapped, hrank⟩ := run_updated hdoc h.ranked rfl
    (List.forall₂_reverse_iff.2 hlists)
    (by rw [List.map_reverse, List.nodup_reverse, hfst]; exact hsettled.distinct)
    (by rw [List.map_reverse, List.nodup_reverse]; exact h.distinct)
  have hswapped' : r.document.Swapped doc' (pairs.map Prod.swap).reverse := by
    rw [← List.map_reverse]
    exact hswapped
  refine ⟨doc', ?_, h.swapped.undo hswapped' h.distinct h.unused, hrank⟩
  have hpending : Phase.update ∉ r.finished := by
    rw [h.session]
    simp
  have hitems : r.items.reverse = List.zipWith (fun (item : Item) (pair : Replacement) =>
      item.restored pair.2) s.items.reverse pairs.reverse := by
    rw [h.session, List.reverse_zipWith hlists.length_eq]
  rw [Session.update, if_neg hpending, hitems, hrun, h.session]
  simp only [bind, Except.bind, List.reverse_reverse, List.append_nil, Session.finish, pure,
    Except.pure, List.cons_append, List.nil_append, ← hsettled.finished, ← hsettled.progress]

/-- A session stays settled when its document comes back. -/
theorem Session.IsSettled.again (h : s.IsSettled rank roots) {doc' : Document}
    (hswapped : s.document.Swapped doc' []) (hrank : doc'.Ranked rank) :
    ({ s with document := doc' } : Session).IsSettled rank roots where
  wellFormed := hswapped.wellFormed
  ranked := hrank
  seated := h.seated.imp fun _ _ hseated =>
    hseated.swapped h.wellFormed hswapped (by simp) (by simp)
  distinct := h.distinct
  elements := h.elements
  finished := h.finished
  progress := h.progress

/-- A session after restoring its sources and updating it again, `k` times. -/
def Session.alternate (s : Session) : Nat → Except Fault Session
  | 0 => .ok s
  | k + 1 => do
    let s ← s.alternate k
    let r ← s.removeFromDocument true
    r.update

/-- However often the sources come and go, the document comes back. -/
theorem Session.IsSettled.exists_alternate (h : s.IsSettled rank roots) (k : Nat) :
    ∃ doc', s.alternate k = .ok { s with document := doc' } ∧ s.document.Swapped doc' [] ∧
      doc'.Ranked rank := by
  induction k with
  | zero => exact ⟨s.document, rfl, .refl h.wellFormed, h.ranked⟩
  | succ k ih =>
    obtain ⟨doc₁, halternate, hswapped₁, hrank₁⟩ := ih
    have hsettled := h.again hswapped₁ hrank₁
    obtain ⟨r, pairs, hremove, hfst, hrestored⟩ := hsettled.exists_restored
    obtain ⟨doc₂, hupdate, hswapped₂, hrank₂⟩ := hrestored.exists_update hsettled hfst
    refine ⟨doc₂, ?_, hswapped₁.trans hswapped₂, hrank₂⟩
    simp only [Session.alternate, halternate, bind, Except.bind, hremove, hupdate]

/-! ### The tree with the sources -/

theorem current_related {Rel : NodeId → NodeId → Prop} {pairs pairs' : List Replacement}
    (h : List.Forall₂ (fun a b => a.1 = b.1 ∧ Rel a.2 b.2) pairs pairs')
    (hx : ∀ x ∈ pairs.map Prod.snd, x ∉ pairs.map Prod.fst)
    (hx' : ∀ x ∈ pairs'.map Prod.snd, x ∉ pairs'.map Prod.fst) (c : NodeId) :
    Session.current pairs c = c ∧ Session.current pairs' c = c ∨
      Rel (Session.current pairs c) (Session.current pairs' c) := by
  induction h with
  | nil => exact .inl ⟨rfl, rfl⟩
  | @cons a b pairs pairs' hab hrest ih =>
    have htail : ∀ {p : Replacement} {ps : List Replacement},
        (∀ x ∈ (p :: ps).map Prod.snd, x ∉ (p :: ps).map Prod.fst) →
        p.2 ∉ ps.map Prod.fst ∧ ∀ x ∈ ps.map Prod.snd, x ∉ ps.map Prod.fst := fun hall =>
      ⟨fun hmem => hall _ (List.mem_cons_self ..) (List.mem_cons_of_mem _ hmem),
        fun x hmem hmem' => hall x (List.mem_cons_of_mem _ hmem) (List.mem_cons_of_mem _ hmem')⟩
    rw [current_cons, current_cons b]
    by_cases hc : c = a.1
    · subst hc
      rw [Item.current_singleton_self, hab.1, Item.current_singleton_self,
        current_of_not_mem (htail hx).1, current_of_not_mem (htail hx').1]
      exact .inr hab.2
    · rw [Item.current_singleton_of_ne hc, Item.current_singleton_of_ne (hab.1 ▸ hc)]
      exact ih (htail hx).2 (htail hx').2

/-- Two places are the same place of `doc`, or strings of the same text. -/
def SameOrText (doc r r' : Document) (a b : NodeId) : Prop :=
  a = b ∧ a ∈ doc.ids ∨ ∃ t, r.text? a = some t ∧ r'.text? b = some t

/-- Two places that are the source of one item are the same place, or strings of the same text. -/
theorem Item.HasSource.sameOrText {doc a b : Document} {item : Item} {x y : NodeId}
    (h : item.HasSource a x) (h' : item.HasSource b y)
    (helement : ∀ m, item.math = .node m → m ∈ doc.ids) : SameOrText doc a b x y := by
  rw [Item.HasSource] at h h'
  cases hmath : item.math with
  | text t =>
    rw [hmath] at h h'
    have hspelling : item.spelling? =
        some (item.start.delimiter ++ t ++ item.stop.delimiter) := by rw [Item.spelling?, hmath]
    exact .inr ⟨_, h.trans hspelling, h'.trans hspelling⟩
  | node m =>
    rw [hmath] at h h'
    exact .inl ⟨h.trans h'.symm, h ▸ helement m hmath⟩

/-- Documents that come from one by exchanges are alike if each child gives way in them to the same
place, or to the same text. -/
theorem Document.Swapped.fragment_eq {doc a b : Document} {pairs pairs' : List Replacement}
    (h : doc.Swapped a pairs) (h' : doc.Swapped b pairs')
    (hsame : ∀ p, ∀ c ∈ doc.kids p,
      SameOrText doc a b (Session.current pairs c) (Session.current pairs' c)) :
    a.root.fragment = b.root.fragment := by
  refine fragment_eq_of_related h.wellFormed h'.wellFormed (R := SameOrText doc a b) ?_ ?_
    (mem_subtreesAll_of_mem (List.mem_cons_self ..)) (mem_subtreesAll_of_mem (List.mem_cons_self ..))
    (.inl ⟨h.root.trans h'.root.symm, h.root ▸ root_mem_ids⟩)
  · rintro c d (⟨rfl, hc⟩ | ⟨t, hc, hd⟩)
    · rw [h.shell c hc, h'.shell c hc]
    · rw [text?_eq_some.1 hc, text?_eq_some.1 hd]
  · rintro c d (⟨rfl, hc⟩ | ⟨t, hc, hd⟩)
    · rw [h.kids c hc, h'.kids c hc, List.forall₂_map_left_iff, List.forall₂_map_right_iff,
        List.forall₂_same]
      exact hsame c
    · rw [kids_of_text? hc, kids_of_text? hd]
      exact .nil

theorem Session.Restored.not_mem_roots {pairs : List Replacement} (h : s.Restored r rank pairs)
    (hsettled : s.IsSettled rank roots) : ∀ x ∈ pairs.map Prod.snd, x ∉ roots :=
  fun x hx hroot => by
    obtain ⟨item, -, hseated⟩ := exists_left hsettled.seated hroot
    obtain ⟨p, hp, -⟩ := hseated.host
    exact h.unused x hx p hp

theorem Session.Restored.fragment_eq {r' : Session} {doc' : Document}
    {pairs pairs' : List Replacement} (hsettled : s.IsSettled rank roots)
    (h : s.Restored r rank pairs) (hfst : pairs.map Prod.fst = roots)
    (hswapped : s.document.Swapped doc' []) (hrank : doc'.Ranked rank)
    (h' : ({ s with document := doc' } : Session).Restored r' rank pairs')
    (hfst' : pairs'.map Prod.fst = roots) :
    r'.document.root.fragment = r.document.root.fragment := by
  have hsettled' := hsettled.again hswapped hrank
  have hpairs : List.Forall₂ (fun a b => a.1 = b.1 ∧
      SameOrText s.document r.document r'.document a.2 b.2) pairs pairs' := by
    refine (forall₂_through (h.seated_and_unseated hsettled hfst)
      (h'.seated_and_unseated hsettled' hfst')).imp fun a b ⟨item, ⟨hseat, hun⟩, hseat', hun'⟩ => ?_
    refine ⟨Option.some.inj (hseat.content.symm.trans hseat'.content), ?_⟩
    exact Item.HasSource.sameOrText hun.source hun'.source fun m hm => (hseat.loose m hm).mem_ids
  have hx := h.not_mem_roots hsettled
  have hx' := h'.not_mem_roots hsettled'
  rw [← hfst] at hx
  rw [← hfst'] at hx'
  refine (h.swapped.fragment_eq (hswapped.trans h'.swapped) fun p c hc => ?_).symm
  rcases current_related hpairs hx hx' c with ⟨hc₁, hc₂⟩ | hrel
  · exact .inl ⟨hc₁.trans hc₂.symm, hc₁.symm ▸ (mem_ids_of_mem_kids hc).1⟩
  · exact hrel

end

end Formulary
