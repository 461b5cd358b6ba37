import Formulary.Proofs.Reader.ExpansionLimit
import Formulary.Proofs.Session.RenderedSession
import Formulary.Proofs.Update.SourceExtents

/-! # Locations last until their turn

Before an update of what a search for TeX found in some separate containers, the items stand in the
order of the extents of their sources (`Session.exists_ready`): the keys ascend as the extents do,
and neither reading nor typesetting changes the order.  So each of them has a placement
(`exists_placements`), and an update can be followed from item to item.

Whatever was put in, a string with a location of an item that is still to come has only lost what
stands behind the source of that item (`update_anchored`). -/

namespace Formulary

open Formulary.Tree Document

/-! ### What is found -/

/-- The extent of a sighting in the blocks of a container. -/
def Sighting.extent (o : Extraction) (container : Node) (x : Sighting) : Extent where
  container
  string := x.string.toNat
  block := (o.find container).getD x.string.toNat []
  start := x.start.toNat
  stop := x.stop.toNat

/-- The item was found, and its source has the extent. -/
structure Item.IsFoundAt (doc : Document) (o : Extraction) (item : Item) (e : Extent) : Prop where
  spans : e.Spans doc o item
  source : item.source = .tex

/-- No place is both at or below the one and at or below the other. -/
def Document.Separate (doc : Document) (a b : NodeId) : Prop :=
  ∀ n m, doc.find? a = some n → doc.find? b = some m → n.labels.Disjoint m.labels

/-- One item comes before another one, as the extents of their sources do. -/
def Extent.Ordered (z z' : Item × Extent) : Prop :=
  z.2.Precedes z'.2 ∧ z.1.key < z'.1.key

section

variable {doc : Document} {o : Extraction} {container : Node}

theorem exists_itemOf (hc : container ∈ doc.nodes) (visit : Visit) {x : Sighting}
    (hx : x ∈ Delimiters.find {} ((o.find container).map Block.string)) :
    ∃ item, visit.itemOf .tex (o.find container) x = .ok item ∧
      item.IsFoundAt doc o (x.extent o container) ∧
      (o.find container)[x.string.toNat]? = some (x.extent o container).block ∧
      item.key = visit.stringKey (x.extent o container).block.runs x.start
        (locate (x.extent o container).block.runs x.start x.opener) := by
  obtain ⟨hstring, hstart, hstop, -⟩ := offsets_of_mem_find hx
  obtain ⟨-, block, hsource⟩ := isSource_of_mem_find hx 0
  have hget : (o.find container)[x.string.toNat]? = some block := hsource.get
  have hblock : (x.extent o container).block = block := by
    rw [Sighting.extent, List.getD_eq_getElem?_getD, hget, Option.getD_some]
  have hitem : visit.itemOf .tex (o.find container) x = .ok {
      math := .text x.math
      source := .tex
      display := x.display
      start := locate block.runs x.start x.opener
      stop := locate block.runs x.stop x.closer
      key := visit.stringKey block.runs x.start (locate block.runs x.start x.opener) } := by
    rw [Visit.itemOf, hstring, Text.atIndex?_natCast hget]
  refine ⟨_, hitem, ⟨⟨hc, hblock ▸ hget, hsource.lt, hblock ▸ hsource.le, ?_, ?_⟩, rfl⟩,
    hblock ▸ hget, by rw [hblock]⟩
  · rw [hblock]
    exact ⟨x.opener, congrArg (locate block.runs · x.opener) hstart⟩
  · rw [hblock]
    exact ⟨x.closer, congrArg (locate block.runs · x.closer) hstop⟩

/-- What a source reports for a container comes in the order of the extents. -/
theorem exists_extents_of_itemsIn (hdoc : doc.WellFormed) (hc : container ∈ doc.nodes) {index : Nat}
    {own : List Item} (hown : Source.tex.itemsIn doc o index container = .ok own) :
    ∃ zs : List (Item × Extent), zs.map Prod.fst = own ∧
      (∀ z ∈ zs, z.1.IsFoundAt doc o z.2 ∧ z.2.container = container ∧
        z.1.key.head? = some (index : Int)) ∧
      zs.Pairwise Extent.Ordered := by
  let visit : Visit := { index, container, items := [] }
  choose! item hitem hfound hget hkey using
    fun (x : Sighting) (hx : x ∈ Delimiters.find {} ((o.find container).map Block.string)) =>
      exists_itemOf hc visit hx
  rw [Source.itemsIn, if_pos (by rfl)] at hown
  have hmap := Except.ok.inj ((mapM_eq_ok hitem).symm.trans hown)
  refine ⟨(Delimiters.find {} ((o.find container).map Block.string)).map fun x =>
    (item x, x.extent o container), ?_, ?_, ?_⟩
  · rw [List.map_map]
    exact hmap
  · intro z hz
    obtain ⟨x, hx, rfl⟩ := List.mem_map.1 hz
    refine ⟨hfound x hx, rfl, ?_⟩
    rw [hkey x hx]
    exact Visit.stringKey_head ..
  · refine List.pairwise_map.2 ((Delimiters.find_pairwise _ _).imp_of_mem fun {x y} hx hy hlt => ?_)
    obtain ⟨hxs, hx₁, hx₂, hpos⟩ := offsets_of_mem_find hx
    obtain ⟨hys, hy₁, -⟩ := offsets_of_mem_find hy
    refine ⟨.inl ⟨rfl, ?_⟩, ?_⟩
    · simp only [Sighting.extent]
      omega
    · simp only [hkey x hx, hkey y hy]
      have hlabels := nodup_below hdoc.distinct hc
      exact Visit.stringKey_lt hlabels rfl (hget x hx) (hget y hy) _ _ (by omega)

theorem exists_extents_of_itemsFrom (hdoc : doc.WellFormed) {containers : List NodeId} {index : Nat}
    {found : List Item} (hfound : itemsFrom doc o [.tex] index containers = .ok found)
    (hseparate : containers.Pairwise doc.Separate) :
    ∃ zs : List (Item × Extent), zs.map Prod.fst = found ∧
      (∀ z ∈ zs, z.1.IsFoundAt doc o z.2 ∧
        (∃ id ∈ containers, doc.find? id = some z.2.container) ∧
        ∃ i : Nat, index ≤ i ∧ z.1.key.head? = some (i : Int)) ∧
      zs.Pairwise Extent.Ordered := by
  induction containers generalizing index found with
  | nil =>
    cases hfound
    exact ⟨[], rfl, by simp, .nil⟩
  | cons id rest ih =>
    obtain ⟨container, first, others, hfind, hfirst, hothers, rfl⟩ :=
      exists_of_itemsFrom_cons hfound
    obtain ⟨own, hown, hfirst⟩ := Reader.exists_ok_of_bind hfirst
    cases hfirst
    obtain ⟨hhead, hseparate⟩ := List.pairwise_cons.1 hseparate
    obtain ⟨zs, rfl, hzs, hpair⟩ := exists_extents_of_itemsIn hdoc (mem_of_find? hfind).1 hown
    obtain ⟨zs', rfl, hzs', hpair'⟩ := ih hothers hseparate
    refine ⟨zs ++ zs', by simp, fun z hz => ?_, List.pairwise_append.2 ⟨hpair, hpair', ?_⟩⟩
    · rcases List.mem_append.1 hz with hz | hz
      · obtain ⟨hat, hcontainer, hkey⟩ := hzs z hz
        exact ⟨hat, ⟨id, List.mem_cons_self .., hcontainer ▸ hfind⟩, index, Nat.le_refl _, hkey⟩
      · obtain ⟨hat, ⟨id', hid', hcontainer⟩, i, hi, hkey⟩ := hzs' z hz
        exact ⟨hat, ⟨id', List.mem_cons_of_mem _ hid', hcontainer⟩, i, by omega, hkey⟩
    · intro z hz z' hz'
      obtain ⟨-, hcontainer, hkey⟩ := hzs z hz
      obtain ⟨-, ⟨id', hid', hcontainer'⟩, i, hi, hkey'⟩ := hzs' z' hz'
      refine ⟨.inr (hhead id' hid' _ _ (hcontainer ▸ hfind) hcontainer'), ?_⟩
      obtain ⟨ks, hks⟩ := List.head?_eq_some_iff.1 hkey
      obtain ⟨ks', hks'⟩ := List.head?_eq_some_iff.1 hkey'
      rw [hks, hks']
      exact List.cons_lt_cons_iff.2 (.inl (by omega))

end

/-- A session discovers items in the order of the extents of their sources. -/
theorem Session.exists_extents_of_discover {s s' : Session} (hdoc : s.document.WellFormed)
    (hsources : s.sources = [.tex]) (hunfinished : .discover ∉ s.finished) (hitems : s.items = [])
    (hseparate : (s.containers.getD [s.document.body]).Pairwise s.document.Separate)
    (h : s.discover none = .ok s') :
    ∃ zs : List (Item × Extent), (∃ reports, s' = { s with
        items := zs.map Prod.fst
        finished := s.finished ++ [.discover]
        progress := .discovered
        reports }) ∧
      (∀ z ∈ zs, z.1.IsFoundAt s.document s.extraction z.2 ∧ z.1.IsNew) ∧
      zs.Pairwise fun z z' => z.2.Precedes z'.2 := by
  obtain ⟨found, report, hfound, rfl⟩ := discover_sorted hunfinished hitems h
  rw [hsources] at hfound
  have hnew := fun item hitem => (isUnread_of_mem_itemsFound hfound item hitem).toIsNew
  obtain ⟨zs, rfl, hzs, hpair⟩ := exists_extents_of_itemsFrom hdoc hfound hseparate
  -- the keys ascend, so that nothing is moved
  have hsorted : IsStableSort Item.key (zs.map Prod.fst) (zs.map Prod.fst) := by
    refine ⟨List.pairwise_map.2 (hpair.imp fun hlt => ?_), fun _ => rfl⟩
    exact Key.le_iff.2 (List.lt_asymm hlt.2)
  refine ⟨zs, ⟨s.reports ++ [report], ?_⟩, fun z hz => ⟨(hzs z hz).1, hnew _ (List.mem_map_of_mem hz)⟩,
    hpair.imp And.left⟩
  rw [(sortByKey_isStableSort _).unique hsorted]

/-! ### What is typeset -/

/-- The item with a typeset form beside the document. -/
def Item.besides (item : Item) (root : NodeId) : Item :=
  { item with content := some root, stage := .typeset }

theorem Session.exists_roots_of_typesetAll {doc doc' : Document} (hdoc : doc.WellFormed)
    {items items' : List Item} (hitems : ∀ item ∈ items, item.stage.rank < Stage.typeset.rank)
    (h : typesetAll doc items = .ok (doc', items')) :
    doc.Extends doc' ∧ ∃ roots : List NodeId, roots.length = items.length ∧
      items' = (items.zip roots).map (fun z => z.1.besides z.2) ∧ roots.Nodup ∧
      ∀ root ∈ roots, doc'.IsLoose root ∧ doc.IsNewIn doc' root := by
  induction items generalizing doc items' with
  | nil =>
    cases h
    exact ⟨.refl hdoc, [], rfl, rfl, .nil, by simp⟩
  | cons item rest ih =>
    obtain ⟨hrank, hrest⟩ := List.forall_mem_cons.1 hitems
    obtain ⟨⟨doc₁, item₁⟩, hitem, h⟩ := Reader.exists_ok_of_bind h
    obtain ⟨⟨doc₂, rest₂⟩, hall, h⟩ := Reader.exists_ok_of_bind h
    cases h
    rw [Item.typeset, if_pos hrank] at hitem
    split at hitem
    · cases hitem
    · rename_i root hroot
      obtain ⟨hext, t, hlabel, -, hloose, hfind, hnew⟩ :=
        create_extends hdoc (Item.typesetForm item.source root)
      cases hitem
      obtain ⟨hext', roots, hlen, rfl, hnodup, hroots⟩ := ih hext.wellFormed hrest hall
      have hid := hloose.mem_ids
      refine ⟨hext.trans hext', t.label :: roots, congrArg (· + 1) hlen, by rw [← hlabel]; rfl,
        List.nodup_cons.2 ⟨fun hmem => ?_, hnodup⟩,
        List.forall_mem_cons.2 ⟨⟨hext'.isLoose hloose, t, (hext'.find? hid).trans hfind, hnew⟩,
          fun other hother => ⟨(hroots other hother).1, ?_⟩⟩⟩
      · -- the other typeset forms are new
        obtain ⟨u, hu, hnewer⟩ := (hroots _ hmem).2
        refine hext.wellFormed.fresh_not_mem (hnewer u u.self_mem_subtrees) ?_
        rwa [(mem_of_find? hu).2]
      · obtain ⟨u, hu, hnewer⟩ := (hroots other hother).2
        exact ⟨u, hu, fun s hs => Nat.le_trans hext.fresh (hnewer s hs)⟩

theorem Session.typeset_parts {s s' : Session} (hunfinished : .typeset ∉ s.finished)
    (h : s.typeset = .ok s') : typesetAll s.document s.items = .ok (s'.document, s'.items) := by
  rw [typeset, if_neg hunfinished] at h
  obtain ⟨⟨document, items⟩, hall, h⟩ := Reader.exists_ok_of_bind h
  cases h
  exact hall

theorem Item.read_locations (doc : Document) {item : Item} (hnew : item.IsNew) :
    (item.read doc).start = item.start ∧ (item.read doc).stop = item.stop ∧
      (item.read doc).source = item.source ∧
      (item.read doc).stage.rank < Stage.typeset.rank := by
  have hrank : item.stage.rank < Stage.compiled.rank := by
    rw [hnew.stage]
    decide
  rw [Item.read, Item.compile, if_pos hrank]
  split
  · exact ⟨rfl, rfl, rfl, (by decide : Stage.compiled.rank < Stage.typeset.rank)⟩
  · refine ⟨rfl, rfl, rfl, ?_⟩
    rw [hnew.stage]
    decide

theorem zip_pairwise {α β : Type} {R : α → α → Prop} {S : β → β → Prop} {l : List α} {m : List β}
    (hlen : l.length = m.length) (hl : l.Pairwise R) (hm : m.Pairwise S) :
    (l.zip m).Pairwise fun z z' => R z.1 z'.1 ∧ S z.2 z'.2 := by
  rw [← List.map_fst_zip (Nat.le_of_eq hlen)] at hl
  rw [← List.map_snd_zip (Nat.le_of_eq hlen.symm)] at hm
  exact (List.pairwise_map.1 hl).and (List.pairwise_map.1 hm)

/-- Before an update the items stand in the order in which they were found. -/
theorem Session.exists_ready {s s₁ s₂ s₃ : Session} (hdoc : s.document.WellFormed)
    (hsources : s.sources = [.tex]) (hfinished : s.finished = []) (hitems : s.items = [])
    (hseparate : (s.containers.getD [s.document.body]).Pairwise s.document.Separate)
    (h₁ : s.discover none = .ok s₁) (h₂ : s₁.compile = .ok s₂) (h₃ : s₂.typeset = .ok s₃) :
    s.document.Extends s₃.document ∧ ∃ zs : List ((Item × Extent) × NodeId),
      s₃.items = zs.map (fun z => z.1.1) ∧
      (∀ z ∈ zs, z.1.1.IsReady s.document s₃.document s.extraction z.1.2 z.2) ∧
      zs.Pairwise fun z z' => z.1.2.Precedes z'.1.2 ∧ z.2 ≠ z'.2 := by
  obtain ⟨zs, ⟨_, hs₁⟩, hzs, hpair⟩ := exists_extents_of_discover hdoc hsources
    (by simp [hfinished]) hitems hseparate h₁
  have hs₂ := compile_parts (by simp [hs₁, hfinished]) h₂
  have hall := typeset_parts (by simp [hs₂, hs₁, hfinished]) h₃
  let ws := zs.filter fun z => (z.1.readError? s.document).isNone
  have hws : ∀ z ∈ ws, z ∈ zs := fun z hz => (List.mem_filter.1 hz).1
  have hread : s₂.items = ws.map fun z => z.1.read s.document := by
    rw [hs₂, hs₁]
    simp only [List.filter_map, List.map_map]
    rfl
  have hdocument : s₂.document = s.document := by rw [hs₂, hs₁]
  rw [hread, hdocument] at hall
  have hunset : ∀ item ∈ ws.map fun z => z.1.read s.document,
      item.stage.rank < Stage.typeset.rank := by
    intro item hitem
    obtain ⟨z, hz, rfl⟩ := List.mem_map.1 hitem
    exact (Item.read_locations s.document (hzs z (hws z hz)).2).2.2.2
  obtain ⟨hext, roots, hlen, hitems₃, hnodup, hroots⟩ :=
    exists_roots_of_typesetAll hdoc hunset hall
  rw [List.length_map] at hlen
  have hordered := zip_pairwise hlen.symm (hpair.filter _) hnodup
  refine ⟨hext, (ws.zip roots).map fun z => (((z.1.1.read s.document).besides z.2, z.1.2), z.2),
    ?_, fun _ hmem => ?_, List.pairwise_map.2 hordered⟩
  · rw [hitems₃, List.zip_map_left, List.map_map, List.map_map]
    rfl
  · obtain ⟨z, hz, rfl⟩ := List.mem_map.1 hmem
    obtain ⟨hw, hroot⟩ := List.of_mem_zip hz
    obtain ⟨hat, hnew⟩ := hzs z.1 (hws z.1 hw)
    obtain ⟨hstart, hstop, hsource, -⟩ := Item.read_locations s.document hnew
    obtain ⟨hloose, hbeside⟩ := hroots z.2 hroot
    have hspans := hat.spans
    refine ⟨⟨hspans.container, hspans.get, hspans.lt, hspans.le, hstart ▸ hspans.begins,
      hstop ▸ hspans.ends⟩, rfl, ?_, rfl, hloose, hbeside⟩
    rw [Item.besides, hsource, hat.source]
    rfl

/-! ### What an update goes through -/

theorem exists_pairs {α β : Type} {R : α → β → Prop} {l : List α} (h : ∀ a ∈ l, ∃ b, R a b) :
    ∃ ps : List (α × β), ps.map Prod.fst = l ∧ ∀ p ∈ ps, R p.1 p.2 := by
  induction l with
  | nil => exact ⟨[], rfl, by simp⟩
  | cons a rest ih =>
    obtain ⟨hhead, hrest⟩ := List.forall_mem_cons.1 h
    obtain ⟨b, hb⟩ := hhead
    obtain ⟨ps, rfl, hps⟩ := ih hrest
    exact ⟨(a, b) :: ps, rfl, List.forall_mem_cons.2 ⟨hb, hps⟩⟩

/-- Items in the order of the extents of their sources can be put in one after the other. -/
theorem exists_placements {doc doc₀ : Document} {o : Extraction} (hdoc : doc.WellFormed)
    (hext : doc.Extends doc₀) {zs : List ((Item × Extent) × NodeId)}
    (hready : ∀ z ∈ zs, z.1.1.IsReady doc doc₀ o z.1.2 z.2)
    (hpair : zs.Pairwise fun z z' => z.1.2.Precedes z'.1.2 ∧ z.2 ≠ z'.2) :
    ∃ places : List (Placement doc₀), places.map Placement.item = zs.map (fun z => z.1.1) ∧
      places.Pairwise Placement.Precedes ∧
      ∀ P ∈ places, P.item.firstCharacter doc₀ o = some P.front := by
  have hplaced : ∀ z ∈ zs, ∃ P : Placement doc₀, P.item = z.1.1 ∧ P.root = z.2 ∧
      (∃ E : z.1.2.Seat o P.item, P.Lies doc E) ∧ P.item.firstCharacter doc₀ o = some P.front := by
    intro z hz
    obtain ⟨P, E, hitem, hroot, hlies, hfront⟩ :=
      Placement.exists_of_isReady (hready z hz) hext hdoc
    exact ⟨P, hitem, hroot, ⟨E, hlies⟩, by rw [hitem, hfront]⟩
  obtain ⟨ps, rfl, hps⟩ := exists_pairs hplaced
  refine ⟨ps.map Prod.snd, ?_, List.pairwise_map.2 ?_, fun P hP => ?_⟩
  · rw [List.map_map, List.map_map]
    exact List.map_congr_left fun p hp => (hps p hp).1
  · refine (List.pairwise_map.1 hpair).imp_of_mem fun {p q} hp hq hlt => ?_
    obtain ⟨-, hroot, ⟨E, hlies⟩, -⟩ := hps p hp
    obtain ⟨-, hroot', ⟨E', hlies'⟩, -⟩ := hps q hq
    exact hlies.precedes hlies' hext hdoc hlt.1 (hroot ▸ hroot' ▸ hlt.2)
  · obtain ⟨p, hp, rfl⟩ := List.mem_map.1 hP
    exact (hps p hp).2.2.2

/-- At every point of an update, a string in which a location of an item that is still to come is
gives way, in the end, to a string in its place with its text up to the first character of the most
recent source that has this character in it.  The offset of the location is not beyond that. -/
theorem update_anchored (doc : Document) (hdoc : doc.WellFormed) (o : Extraction)
    (containers : Option (List NodeId))
    (hseparate : (containers.getD [doc.body]).Pairwise doc.Separate) (s₁ s₂ s₃ : Session)
    (h₁ : ({ document := doc, sources := [.tex], containers, extraction := o } : Session).discover
      none = .ok s₁)
    (h₂ : s₁.compile = .ok s₂) (h₃ : s₂.typeset = .ok s₃) (done pending : List Item)
    (hsplit : s₃.items.reverse = done ++ pending) :
    ∃ u, Session.Updating.run { session := s₃ } done = .ok u ∧
      ∀ item ∈ pending, ∀ l, l = item.start ∨ l = item.stop → ∀ t s, l.node = some t →
        s₃.document.text? t = some s →
        let now := Session.current u.replaced t
        Session.LeadsTo u.replaced t now ∧
        (s₃.document.IsAttached t → u.session.document.IsAttached now) ∧
        (∃ p ahead behind behind', s₃.document.kids p = ahead ++ t :: behind ∧
          u.session.document.kids p = ahead ++ now :: behind') ∧
        ∃ s', u.session.document.text? now = some s' ∧
          s'.toList = s.toList.take (((done.reverse.filterMap
            (Item.firstCharacter s₃.document o)).lookup t).getD s.toList.length) ∧
          l.offset ≤ s'.toList.length := by
  obtain ⟨hext, zs, hitems, hready, hpair⟩ :=
    Session.exists_ready hdoc rfl rfl rfl hseparate h₁ h₂ h₃
  obtain ⟨places, hplaces, hordered, hfront⟩ := exists_placements hdoc hext hready hpair
  have hdoc₃ := hext.wellFormed
  rw [hitems, ← hplaces, ← List.map_reverse] at hsplit
  obtain ⟨placed, waiting, hreverse, rfl, rfl⟩ := List.map_eq_append_iff.1 hsplit
  have hordered' := List.pairwise_reverse.2 hordered
  rw [hreverse] at hordered'
  obtain ⟨u, hrun, hunder⟩ := (Underway.start hdoc₃ (placed ++ waiting)).exists_run hdoc₃ hordered'
  rw [List.append_nil] at hunder
  refine ⟨u, hrun, fun item hitem l hl t s ht hs => ?_⟩
  obtain ⟨P, hP, rfl⟩ := List.mem_map.1 hitem
  have hlater : ∀ Q ∈ placed.reverse, P.Precedes Q := fun Q hQ =>
    (List.pairwise_append.1 hordered').2.2 Q (List.mem_reverse.1 hQ) P hP
  have hfronts : ((placed.map Placement.item).reverse.filterMap
      (Item.firstCharacter s₃.document o)) = placed.reverse.map Placement.front := by
    rw [← List.map_reverse, List.filterMap_map, ← List.filterMap_eq_map]
    refine List.filterMap_congr fun Q hQ => hfront Q ?_
    rw [← List.mem_reverse, hreverse]
    exact List.mem_append_left _ (List.mem_reverse.1 hQ)
  obtain ⟨hattached, ⟨ahead, behind, behind', hkids⟩, htext⟩ :=
    (hunder.waits P hP).location hdoc₃ hlater hl ht hs
  rw [hfronts, Placement.lookup_front hdoc₃ hlater hl ht hs]
  exact ⟨Session.leadsTo_current hunder.retired.once hunder.retired.proper t, hattached,
    ⟨P.stretch.host, ahead, behind, behind', hkids⟩, htext⟩

/-- A paragraph with two formulas in one string. -/
def Document.besideFormulas : Document :=
  .ofFragments [.build "p" [] [.text "$x$ $x$"]]

/-- What is seen in a string with two formulas. -/
def Sighting.beside : List Sighting :=
  [⟨"x", "$", "$", 0, 0, 3, false⟩, ⟨"x", "$", "$", 0, 4, 7, false⟩]

theorem find_beside : Delimiters.find {} ["$x$ $x$"] = Sighting.beside := by
  have hopens : Delimiters.opening? {} "$x$ $x$".toList = some (.math ['$'] false, 0) ∧
      Delimiters.opening? {} " $x$".toList = none ∧
      Delimiters.opening? {} "$x$".toList = some (.math ['$'] false, 0) := by
    simp only [Delimiters.opening?, Delimiters.delimiterAt?, Delimiters.openers_usual]
    decide +kernel
  have hseen : Delimiters.seen? 0 0 ['$'] "x$ $x$".toList (.math ['$'] false) =
      some (Sighting.beside[0], " $x$".toList) := by decide +kernel
  have hseen' : Delimiters.seen? 0 4 ['$'] "x$".toList (.math ['$'] false) =
      some (Sighting.beside[1], []) := by decide +kernel
  have hscan : Delimiters.Scans {} 0 0 "$x$ $x$".toList Sighting.beside 7 [] :=
    .seen hopens.1 hseen (.plain hopens.2.1 (.seen hopens.2.2 hseen' (.refl 7 [])))
  exact hscan.find_singleton

theorem error?_beside : ∀ x ∈ Sighting.beside, x.error? = none := by
  have htokens : tokenize "x" = .ok [⟨.letter, "x", 0⟩] := by decide +kernel
  intro x hx
  have hmath : x.math = "x" := by
    rcases List.mem_pair.1 hx with rfl | rfl <;> rfl
  rw [Sighting.error?, hmath, readTex_of_runFor 2 htokens rfl rfl]
  rfl

theorem update_anchored_besideFormulas : besideFormulas.WellFormed ∧
    [besideFormulas.body].Pairwise besideFormulas.Separate ∧ ∃ s₁ s₂ s₃ : Session,
    ({ document := besideFormulas, sources := [.tex] } : Session).discover none = .ok s₁ ∧
    s₁.compile = .ok s₂ ∧ s₂.typeset = .ok s₃ ∧
    ∃ item other : Item, s₃.items.reverse = [other] ++ [item] ∧
    item.stop.node = some 2 ∧ s₃.document.text? 2 = some "$x$ $x$" ∧
    ∃ u : Session.Updating, Session.Updating.run { session := s₃ } [other] = .ok u ∧
      ∃ s', u.session.document.text? (Session.current u.replaced 2) = some s' ∧
        item.stop.offset ≤ s'.toList.length := by
  have hdoc : besideFormulas.WellFormed := wellFormed_ofFragments _
  obtain ⟨s₁, F, h₁, hfound, hfinished⟩ := Findings.exists_discover
    (s := { document := besideFormulas, sources := [.tex] }) ⟨rfl, rfl, rfl⟩ hdoc (.inl rfl) rfl rfl
    (by simp)
  obtain ⟨s₂, h₂, hread, hfinished₂⟩ := hfound.exists_compile hdoc (.inl rfl) (by simp [hfinished])
  obtain ⟨s₃, added, h₃, htypeset, -⟩ := hread.exists_typeset hdoc (.inl rfl)
    (by simp [hfinished₂, hfinished])
  have hcontainer : F.container = besideFormulas.root := Option.some.inj (F.body.symm.trans rfl)
  have hblocks : F.blocks = [[⟨2, "$x$ $x$"⟩]] := by
    rw [F.blocks_eq, hcontainer]
    decide +kernel
  have hfinds : F.finds = Sighting.beside.map .sighting := by
    have hsorted := finds_keySorted (nodup_below hdoc.distinct (mem_of_find? F.body).1)
      (show Source.tex = .tex ∨ Source.tex = .mathml from .inl rfl)
    rw [← F.blocks_eq] at hsorted
    have hperm := F.survey.perm
    rw [findsOf, List.flatMap_singleton] at hperm
    rw [F.survey.sorted.eq_of_perm hsorted hperm, hblocks]
    exact congrArg (List.map Find.sighting) find_beside
  have hfilter : F.finds.filter Find.isRead = Sighting.beside.map .sighting := by
    rw [hfinds, List.filter_eq_self]
    intro f hf
    obtain ⟨x, hx, rfl⟩ := List.mem_map.1 hf
    rw [Find.isRead, Find.error?, error?_beside x hx]
    rfl
  obtain ⟨a, b, rfl⟩ : ∃ a b, added = [a, b] :=
    List.length_eq_two.1 (htypeset.length.trans (congrArg List.length hfilter))
  let item (x : Sighting) (t : Node) : Item :=
    (Find.sighting x).typeset besideFormulas F.container F.blocks t.label
  have hsplit : s₃.items.reverse =
      [item Sighting.beside[1] b] ++ [item Sighting.beside[0] a] := by
    rw [htypeset.items, Findings.typeset, hfilter]
    rfl
  have hseparate : [besideFormulas.body].Pairwise besideFormulas.Separate :=
    List.pairwise_singleton ..
  have htext : s₃.document.text? 2 = some "$x$ $x$" :=
    (htypeset.furnished.text? (by decide)).trans (by decide)
  obtain ⟨u, hrun, hpending⟩ := update_anchored besideFormulas hdoc {} none hseparate s₁ s₂ s₃ h₁ h₂
    h₃ _ _ hsplit
  have hstop : (item Sighting.beside[0] a).stop = ⟨some 2, 3, "$"⟩ := by
    show locate (Block.runs (F.blocks.getD 0 [])) 3 "$" = _
    rw [hblocks]
    rfl
  obtain ⟨-, -, -, s', hs', -, hle⟩ := hpending _ (List.mem_singleton_self _) _ (.inr rfl) 2 _
    (by rw [hstop]) htext
  exact ⟨hdoc, hseparate, s₁, s₂, s₃, h₁, h₂, h₃, _, _, hsplit, by rw [hstop], htext, u, hrun, s',
    hs', hle⟩

end Formulary
