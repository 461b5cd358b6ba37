import Formulary.Discovery
import Formulary.Proofs.Discovery.Candidates
import Formulary.Proofs.Discovery.KeyOrder

/-! # What a discovery finds

The items of a discovery are those of the sightings in the blocks of a container and of the
elements in it (`Find`), in the order of their keys.  No two of them have one key, so this says
what the list of items is (`IsSurvey`, `discover_survey`).  Among the sightings it is the order in
which they were seen (`find_keySorted`). -/

namespace Formulary

open Formulary.Tree Document

section

variable {doc : Document} {container : Node} {blocks : List Block}

/-! ### Finds -/

/-- Something that is found in a container: a sighting in its blocks, or an element. -/
inductive Find where
  | sighting (x : Sighting)
  | element (m : NodeId) (display : Bool)
deriving DecidableEq, Repr, Inhabited

/-- The item for something that is found. -/
def Find.item (container : Node) (blocks : List Block) : Find → Item
  | sighting x =>
    let runs := Block.runs (blocks.getD x.string.toNat [])
    let visit : Visit := { index := 0, container, items := [] }
    let start := locate runs x.start x.opener
    { math := .text x.math, source := .tex, display := x.display, start
      stop := locate runs x.stop x.closer, key := visit.stringKey runs x.start start }
  | element m display =>
    ({ index := 0, container, items := [] } : Visit).itemOfElement .mathml m display

/-- The order of finds in the document. -/
def Find.key (container : Node) (blocks : List Block) (f : Find) : Key :=
  (f.item container blocks).key

/-- What a source finds in a container. -/
def Source.finds (source : Source) (container : Node) (blocks : List Block) : List Find :=
  if source.readsStrings then (source.sightings (blocks.map Block.string)).map .sighting
  else (mathAmong container.children).map fun n => .element n.label (isDisplay n)

/-- The sources of a session without filters, each at most once. -/
def Source.AreUsual (sources : List Source) : Prop :=
  sources = [tex] ∨ sources = [mathml] ∨ sources = [tex, mathml] ∨ sources = [mathml, tex]

theorem Source.AreUsual.eq_or {sources : List Source} (h : AreUsual sources) {source : Source}
    (hs : source ∈ sources) : source = tex ∨ source = mathml := by
  rcases h with rfl | rfl | rfl | rfl <;> simp at hs <;> tauto

/-- A piece comes before another one in document order. -/
def Piece.Precedes (container : Node) (c d : Piece) : Prop :=
  container.labels.idxOf c.node < container.labels.idxOf d.node

theorem pairwise_idxOf {l : List NodeId} (h : l.Nodup) :
    l.Pairwise fun a b => l.idxOf a < l.idxOf b := by
  refine List.pairwise_iff_getElem.2 fun i j hi hj hlt => ?_
  rw [h.idxOf_getElem, h.idxOf_getElem]
  exact hlt

theorem labels_below_sublist (t : Node) :
    ((subtreesAll t.children).map label).Sublist t.labels := by
  rw [labels, subtrees_eq]
  exact List.sublist_cons_self _ _

theorem find_pairwise_precedes (o : Extraction) (hlabels : container.labels.Nodup) :
    (o.find container).flatten.Pairwise (Piece.Precedes container) := by
  have hsub := (o.find_sublist container).trans (labels_below_sublist container)
  exact (List.pairwise_map (f := Piece.node)).1 ((pairwise_idxOf hlabels).sublist hsub)

theorem exists_start {x : Sighting} (h : x ∈ Delimiters.find {} (blocks.map Block.string)) :
    ∃ (block before after : Block) (piece : Piece), blocks[x.string.toNat]? = some block ∧
      block = before ++ piece :: after ∧
      (Find.item container blocks (.sighting x)).start =
        ⟨some piece.node, x.start - (before.chars.length : Int), x.opener⟩ ∧
      x.start.toNat ≤ before.chars.length + piece.text.toList.length ∧
      (before = [] ∨ before.chars.length < x.start.toNat) := by
  obtain ⟨-, hnat, -⟩ := offsets_of_mem_find h
  obtain ⟨-, block, hsource⟩ := isSource_of_mem_find h 0
  have hget : blocks[x.string.toNat]? = some block := hsource.get
  have hle : x.start.toNat ≤ block.chars.length :=
    Nat.le_trans (Nat.le_of_lt hsource.lt) hsource.le
  have hne : block ≠ [] := by
    rintro rfl
    exact Nat.not_lt_zero _ (Nat.lt_of_lt_of_le hsource.lt hsource.le)
  obtain ⟨before, piece, after, heq, hlocate, hreach, hfirst⟩ := Block.locate_spec block hne hle
  rw [← hnat] at hlocate
  refine ⟨block, before, after, piece, hget, heq, ?_, hreach, hfirst⟩
  rw [Find.item, List.getD_eq_getElem?_getD, hget, Option.getD_some]
  exact hlocate x.opener

theorem exists_key {x : Sighting} (h : x ∈ Delimiters.find {} (blocks.map Block.string)) :
    ∃ (block before after : Block) (piece : Piece), blocks[x.string.toNat]? = some block ∧
      block = before ++ piece :: after ∧
      Find.key container blocks (.sighting x) =
        ([0, (container.labels.idxOf piece.node : Int), x.start - (before.chars.length : Int)] : Key) ∧
      x.start.toNat ≤ before.chars.length + piece.text.toList.length ∧
      (before = [] ∨ before.chars.length < x.start.toNat) := by
  obtain ⟨block, before, after, piece, hget, heq, hstart, hbounds⟩ := @exists_start container _ _ h
  refine ⟨block, before, after, piece, hget, heq, ?_, hbounds⟩
  have hlocate : locate (Block.runs (blocks.getD x.string.toNat [])) x.start x.opener =
      ⟨some piece.node, x.start - (before.chars.length : Int), x.opener⟩ := hstart
  rw [Find.key, Find.item, Visit.stringKey, hlocate]
  rfl

/-- Sightings come in the order of their keys. -/
theorem find_keySorted (hpieces : blocks.flatten.Pairwise (Piece.Precedes container)) :
    KeySorted (Find.key container blocks)
      ((Delimiters.find {} (blocks.map Block.string)).map .sighting) := by
  obtain ⟨hwithin, hacross⟩ := List.pairwise_flatten.1 hpieces
  refine List.pairwise_map.2 ((Delimiters.find_pairwise _ _).imp_of_mem fun {x y} hx hy hlt => ?_)
  obtain ⟨hxs, hx₁, hx₂, hpos⟩ := offsets_of_mem_find hx
  obtain ⟨hys, hy₁, -⟩ := offsets_of_mem_find hy
  obtain ⟨b, before, after, c, hb, heq, hkey, -, hfirst⟩ := @exists_key container _ _ hx
  obtain ⟨b', before', after', c', hb', heq', hkey', hreach', -⟩ :=
    @exists_key container _ _ hy
  rw [hkey, hkey', Key.triple_lt]
  rcases hlt with hlt | ⟨hj, hle⟩
  · left
    obtain ⟨hi, rfl⟩ := List.getElem?_eq_some_iff.1 hb
    obtain ⟨hi', rfl⟩ := List.getElem?_eq_some_iff.1 hb'
    have := List.pairwise_iff_getElem.1 hacross _ _ hi hi' (by omega) c (by simp [heq]) c'
      (by simp [heq'])
    exact Int.ofNat_lt.2 this
  · rw [hj, hb', Option.some.injEq] at hb
    subst hb
    rcases Block.located_eq_or_before heq heq' (by omega : x.start.toNat ≤ y.start.toNat) hfirst
      hreach' with ⟨rfl, rfl⟩ | ⟨mid, rfl⟩
    · exact .inr ⟨rfl, by omega⟩
    · have := (List.pairwise_append.1 (heq' ▸ hwithin _ (List.mem_of_getElem? hb'))).2.2
      exact .inl (Int.ofNat_lt.2 (this c (by simp) c' (by simp)))

theorem elements_keySorted (hlabels : container.labels.Nodup) :
    KeySorted (Find.key container blocks)
      ((Source.mathAmong container.children).map fun n => .element n.label (Source.isDisplay n)) := by
  have hsub := ((Source.mathAmong_sublist container.children).map label).trans
    (labels_below_sublist container)
  have hpair := (List.pairwise_map (f := label)).1 ((pairwise_idxOf hlabels).sublist hsub)
  refine List.pairwise_map.2 (hpair.imp fun hlt => ?_)
  exact Key.triple_lt.2 (.inl (Int.ofNat_lt.2 hlt))

theorem finds_keySorted (hlabels : container.labels.Nodup) {source : Source}
    (hs : source = .tex ∨ source = .mathml) :
    KeySorted (Find.key container (({} : Extraction).find container))
      (source.finds container (({} : Extraction).find container)) := by
  rcases hs with rfl | rfl
  · exact find_keySorted (find_pairwise_precedes {} hlabels)
  · exact elements_keySorted hlabels

theorem mem_finds_tex {f : Find} :
    f ∈ Source.tex.finds container blocks ↔
      ∃ x ∈ Delimiters.find {} (blocks.map Block.string), f = .sighting x := by
  simp only [Source.finds, Source.readsStrings, Source.tex, Source.sightings, if_true, List.mem_map]
  exact exists_congr fun x => and_congr_right fun _ => eq_comm

theorem mem_finds_mathml {f : Find} :
    f ∈ Source.mathml.finds container blocks ↔
      ∃ n ∈ Source.mathAmong container.children, f = .element n.label (Source.isDisplay n) := by
  simp [Source.finds, Source.readsStrings, Source.mathml, eq_comm]

theorem key_ne {x : Sighting} (hx : x ∈ Delimiters.find {} (blocks.map Block.string))
    (hpieces : ∀ c ∈ blocks.flatten, c.node ∈ container.labels) {m : NodeId}
    (hm : m ∉ blocks.flatten.map Piece.node) (display : Bool) :
    Find.key container blocks (.sighting x) ≠ Find.key container blocks (.element m display) := by
  obtain ⟨block, before, after, c, hb, heq, hkey, -⟩ := @exists_key container _ _ hx
  have hc : c ∈ blocks.flatten :=
    List.mem_flatten.2 ⟨block, List.mem_of_getElem? hb, by simp [heq]⟩
  intro h
  rw [hkey] at h
  have hidx := (List.cons.inj (List.cons.inj h).2).1
  have hnode := (List.idxOf_inj (hpieces c hc)).1 (Int.ofNat.inj hidx)
  exact hm (hnode ▸ List.mem_map_of_mem hc)

/-- The finds of some sources in a container and its blocks. -/
def findsOf (sources : List Source) (container : Node) (blocks : List Block) : List Find :=
  sources.flatMap fun source => source.finds container blocks

theorem nodup_keys (h : doc.WellFormed) (hc : container ∈ doc.nodes) {sources : List Source}
    (hs : Source.AreUsual sources) (hblocks : blocks = ({} : Extraction).find container) :
    ((findsOf sources container blocks).map (Find.key container blocks)).Nodup := by
  subst hblocks
  have hlabels := nodup_below h.distinct hc
  have hnodup : ∀ source : Source, source = .tex ∨ source = .mathml →
      ((source.finds container (({} : Extraction).find container)).map
        (Find.key container (({} : Extraction).find container))).Nodup := fun source hs' => by
    refine List.pairwise_map.2 ((finds_keySorted hlabels hs').imp ?_)
    intro f g hlt heq
    rw [heq] at hlt
    exact List.lt_irrefl _ hlt
  have hboth : ((Source.tex.finds container (({} : Extraction).find container) ++
      Source.mathml.finds container (({} : Extraction).find container)).map
        (Find.key container (({} : Extraction).find container))).Nodup := by
    rw [List.map_append]
    refine List.nodup_append.2 ⟨hnodup _ (.inl rfl), hnodup _ (.inr rfl), ?_⟩
    intro a ha b hb
    obtain ⟨f, hf, rfl⟩ := List.mem_map.1 ha
    obtain ⟨g, hg, rfl⟩ := List.mem_map.1 hb
    obtain ⟨x, hx, rfl⟩ := mem_finds_tex.1 hf
    obtain ⟨n, hn, rfl⟩ := mem_finds_mathml.1 hg
    refine key_ne hx (fun c hc' => ?_) (isElement_of_mem_mathAmong h hc hn).outside _
    exact ((Extraction.find_sublist {} container).trans
      (labels_below_sublist container)).subset (List.mem_map_of_mem hc')
  rcases hs with rfl | rfl | rfl | rfl
  · simpa [findsOf] using hnodup _ (.inl rfl)
  · simpa [findsOf] using hnodup _ (.inr rfl)
  · simpa [findsOf] using hboth
  · simpa [findsOf] using (List.perm_append_comm.map _).nodup hboth

/-! ### Discovery -/

theorem mapM_eq_ok {α β : Type} {f : α → Except Fault β} {g : α → β} {l : List α}
    (h : ∀ a ∈ l, f a = .ok (g a)) : l.mapM f = .ok (l.map g) := by
  induction l with
  | nil => rfl
  | cons a rest ih =>
    rw [List.mapM_cons, h a (List.mem_cons_self ..), ih fun b hb => h b (List.mem_cons_of_mem _ hb)]
    rfl

theorem Text.indexIn?_natCast {length i : Nat} (h : i < length) :
    Text.indexIn? length i = some i := by
  have hneg : ¬(i : Int) < 0 := by omega
  simp only [Text.indexIn?, if_neg hneg]
  rw [if_pos (by omega), Int.toNat_natCast]

theorem Text.atIndex?_natCast {α : Type} {xs : List α} {i : Nat} {x : α} (h : xs[i]? = some x) :
    Text.atIndex? xs i = some x := by
  obtain ⟨hi, -⟩ := List.getElem?_eq_some_iff.1 h
  rw [Text.atIndex?, Text.indexIn?_natCast hi, Option.bind_some, h]

/-- A container on its way through the sources, with the finds `own` so far. -/
structure IsVisit (container : Node) (blocks : List Block) (own : List Find) (visit : Visit) :
    Prop where
  index : visit.index = 0
  place : visit.container = container
  texts : visit.blocks.getD (({} : Extraction).find container) = blocks
  items : visit.items = own.map (Find.item container blocks)

theorem IsVisit.itemOf {own : List Find} {visit : Visit} (h : IsVisit container blocks own visit)
    {x : Sighting} (hx : x ∈ Delimiters.find {} (blocks.map Block.string)) :
    visit.itemOf .tex blocks x = .ok (Find.item container blocks (.sighting x)) := by
  obtain ⟨hnat, -⟩ := offsets_of_mem_find hx
  obtain ⟨-, block, hsource⟩ := isSource_of_mem_find hx 0
  have hget : blocks[x.string.toNat]? = some block := hsource.get
  rw [Visit.itemOf, hnat, Text.atIndex?_natCast hget, Find.item, List.getD_eq_getElem?_getD, hget]
  simp only [Option.getD_some, Visit.stringKey, Visit.number, h.index, h.place]

theorem IsVisit.strings {own : List Find} {visit : Visit}
    (h : IsVisit container blocks own visit) :
    ∃ visit', visit.strings {} = (blocks, visit') ∧ IsVisit container blocks own visit' := by
  have htexts := h.texts
  rw [Visit.strings]
  cases hblocks : visit.blocks with
  | some old =>
    rw [hblocks, Option.getD_some] at htexts
    subst htexts
    exact ⟨visit, rfl, h⟩
  | none =>
    rw [hblocks, Option.getD_none, ← h.place] at htexts
    subst htexts
    exact ⟨_, rfl, h.index, h.place, rfl, h.items⟩

theorem IsVisit.merge {own found : List Find} {visit : Visit}
    (h : IsVisit container blocks own visit) :
    IsVisit container blocks (mergeByKey (Find.key container blocks) own found)
      { visit with
        items := mergeByKey Item.key visit.items (found.map (Find.item container blocks)) } := by
  refine ⟨h.index, h.place, h.texts, ?_⟩
  rw [h.items]
  exact mergeByKey_map _ _

theorem IsVisit.itemOfElement {own : List Find} {visit : Visit}
    (h : IsVisit container blocks own visit) (m : NodeId) (display : Bool) :
    visit.itemOfElement .mathml m display = Find.item container blocks (.element m display) := by
  obtain ⟨hindex, hplace, -, -⟩ := h
  cases visit
  subst hindex hplace
  rfl

theorem IsVisit.ask (hdoc : doc.WellFormed) (hc : container ∈ doc.nodes) {own : List Find}
    {visit : Visit} (h : IsVisit container blocks own visit) {source : Source}
    (hs : source = .tex ∨ source = .mathml) :
    ∃ visit', visit.ask doc {} source = .ok visit' ∧
      IsVisit container blocks (mergeByKey (Find.key container blocks) own
        (source.finds container blocks)) visit' := by
  rcases hs with rfl | rfl
  · obtain ⟨visit', hstrings, hvisit'⟩ := h.strings
    have hfound : (Source.tex.sightings (blocks.map Block.string)).mapM
          (visit'.itemOf .tex blocks) =
        .ok ((Source.tex.finds container blocks).map (Find.item container blocks)) := by
      have hreads : Source.tex.readsStrings = true := rfl
      rw [Source.finds, if_pos hreads, List.map_map]
      exact mapM_eq_ok fun x hx => hvisit'.itemOf hx
    refine ⟨_, ?_, hvisit'.merge⟩
    have hreads : Source.tex.readsStrings = true := rfl
    rw [Visit.ask, if_pos hreads, hstrings]
    simp only [hfound, bind, Except.bind]
    rfl
  · have hfound : (Source.mathml.spots doc visit.container).map (visit.itemOfSpot .mathml) =
        (Source.mathml.finds container blocks).map (Find.item container blocks) := by
      have hspots : Source.mathml.spots doc visit.container =
          (Source.elements doc container).map fun e => .ofElement e.1 e.2 := by
        rw [h.place]
        rfl
      rw [hspots, Source.elements_eq hdoc hc, Source.finds, if_neg (by decide)]
      simp only [List.map_map]
      exact List.map_congr_left fun n _ => h.itemOfElement n.label (Source.isDisplay n)
    refine ⟨_, ?_, h.merge⟩
    rw [Visit.ask, if_neg (by decide), hfound]

theorem IsVisit.askAll (hdoc : doc.WellFormed) (hc : container ∈ doc.nodes)
    {sources : List Source} (hs : ∀ source ∈ sources, source = .tex ∨ source = .mathml)
    {own : List Find} {visit : Visit} (h : IsVisit container blocks own visit)
    (hle : own.Pairwise fun f g =>
      (Find.key container blocks f).le (Find.key container blocks g) = true) :
    ∃ visit' finds, Visit.askAll doc {} visit sources = .ok visit' ∧
      IsVisit container blocks finds visit' ∧
      finds.Perm (own ++ findsOf sources container blocks) ∧
      finds.Pairwise fun f g =>
        (Find.key container blocks f).le (Find.key container blocks g) = true := by
  induction sources generalizing own visit with
  | nil => exact ⟨visit, own, rfl, h, by simp [findsOf], hle⟩
  | cons source rest ih =>
    obtain ⟨visit₁, hask, hvisit₁⟩ := h.ask hdoc hc (hs source (List.mem_cons_self ..))
    obtain ⟨visit₂, finds, hrest, hvisit₂, hperm, hpair⟩ := ih
      (fun other hother => hs other (List.mem_cons_of_mem _ hother)) hvisit₁
      (mergeByKey_pairwise hle _)
    refine ⟨visit₂, finds, ?_, hvisit₂, ?_, hpair⟩
    · simp only [Visit.askAll, hask, bind, Except.bind, hrest]
    · rw [findsOf, List.flatMap_cons, ← List.append_assoc]
      exact hperm.trans ((mergeByKey_perm _ _).append_right _)

/-- The finds of some sources in a container, in document order. -/
structure IsSurvey (container : Node) (blocks : List Block) (sources : List Source)
    (finds : List Find) : Prop where
  perm : finds.Perm (findsOf sources container blocks)
  sorted : KeySorted (Find.key container blocks) finds

/-- A session before its first stage, with the usual sources. -/
structure Session.IsFresh (s : Session) : Prop where
  usual : Source.AreUsual s.sources
  containers : s.containers = none
  extraction : s.extraction = {}
  items : s.items = []
  errors : s.errors = []
  finished : s.finished = []

/-- The session after a discovery with the items of some finds. -/
def Session.discovered (s : Session) (container : Node) (blocks : List Block)
    (finds : List Find) : Session :=
  let items := finds.map (Find.item container blocks)
  ({ s with items }.finish .discover .discovered).report
    (.log ("Found " ++ toString items.length ++ " math items"))

theorem exists_body (doc : Document) : ∃ container, doc.find? doc.body = some container := by
  refine exists_of_mem_ids ?_
  rw [body]
  split
  · rename_i node rest hnodes
    have hmem : node ∈ doc.root.descendants "body" := hnodes ▸ List.mem_cons_self ..
    refine List.mem_map_of_mem (subtreesAll_trans ?_
      (mem_subtreesAll_of_mem (List.mem_cons_self ..)))
    exact mem_subtrees_of_below (List.mem_filter.1 hmem).1
  · exact root_mem_ids

/-- A discovery that is not done yet succeeds, and its items are those of the finds in document
order. -/
theorem discover_finds {s : Session} (h : s.document.WellFormed) (hs : Source.AreUsual s.sources)
    (hcontainers : s.containers = none) (hextraction : s.extraction = {}) (hitems : s.items = [])
    (hunfinished : .discover ∉ s.finished) {container : Node}
    (hc : s.document.find? s.document.body = some container) :
    ∃ finds, IsSurvey container (({} : Extraction).find container) s.sources finds ∧
      s.discover none =
        .ok (s.discovered container (({} : Extraction).find container) finds) := by
  have hvisit : IsVisit container (({} : Extraction).find container) []
      { index := 0, container, items := [] } := ⟨rfl, rfl, rfl, rfl⟩
  obtain ⟨visit, finds, hask, hvisit, hperm, hpair⟩ :=
    hvisit.askAll h (mem_of_find? hc).1 (fun _ hsource => hs.eq_or hsource) .nil
  rw [List.nil_append] at hperm
  have hnodup := (hperm.map (Find.key container (({} : Extraction).find container))).nodup_iff.2
    (nodup_keys h (mem_of_find? hc).1 hs rfl)
  refine ⟨finds, ⟨hperm, .of_le hpair hnodup⟩, ?_⟩
  have hget := WellFormed.get_eq hc
  rw [Session.discover, if_neg hunfinished, hcontainers, hitems, hextraction]
  simp only [Option.or_none, Option.getD_none, Formulary.discover, discoverFrom, hget, hask, bind,
    Except.bind, pure, Except.pure, hvisit.items]
  simp only [Session.discovered, Session.finish, Session.report, hcontainers, hextraction]

/-- The first discovery of a session succeeds. -/
theorem discover_survey {s : Session} (h : s.document.WellFormed) (hfresh : s.IsFresh)
    {container : Node} (hc : s.document.find? s.document.body = some container) :
    ∃ finds, IsSurvey container (({} : Extraction).find container) s.sources finds ∧
      s.discover none =
        .ok (s.discovered container (({} : Extraction).find container) finds) :=
  discover_finds h hfresh.usual hfresh.containers hfresh.extraction hfresh.items
    (by simp [hfresh.finished]) hc

end

end Formulary
