import Formulary.Proofs.Document.Body
import Formulary.Proofs.Reader.ExpansionLimit
import Formulary.Proofs.Restoration.RestoredStreams

/-! # Finding again what came back

A discovery in a document whose sources are back finds what the first one found, apart from the
elements in what was strictly inside a source (`Session.Rendered.Revived.finds_eq`). -/

namespace Formulary

open Formulary.Tree Document Insertion

/-! ### Searches that watch for less -/

/-- Whether a search notes a mark that reads, or does not, and seeks, or does not. -/
def Mark.isKept (reads seeks : Bool) (k : Mark) : Bool := if k.element?.isSome then seeks else reads

/-- The same for signs. -/
def Sign.isKept (reads seeks : Bool) (k : Sign) : Bool := if k.find?.isSome then seeks else reads

section

variable {hide : NodeId → Bool}

theorem marksIn_filter (w : Watch) (reads seeks : Bool) (t : Node) :
    marksIn hide ⟨w.reads && reads, w.ignores, w.seeks && seeks⟩ t =
      (marksIn hide w t).filter (Mark.isKept reads seeks) := by
  induction t using induct generalizing w with
  | step t ih =>
    have hbefore : Watch.before ⟨w.reads && reads, w.ignores, w.seeks && seeks⟩ t =
        (w.before t).filter (Mark.isKept reads seeks) := by
      rw [Watch.before, Watch.before]
      cases ({} : Extraction).piece? t <;> cases w.reads <;> cases w.ignores <;> cases reads <;> rfl
    have hown : Watch.own ⟨w.reads && reads, w.ignores, w.seeks && seeks⟩ t =
        (w.own t).filter (Mark.isKept reads seeks) := by
      cases t with
      | string => rfl
      | element label tag attributes children =>
        rw [Watch.own, Watch.own]
        cases w.seeks <;> cases seeks <;>
          cases tag = "math" && (attributes.get? Formula.typesetMark).isNone <;> rfl
    have hafter : Watch.after ⟨w.reads && reads, w.ignores, w.seeks && seeks⟩ t =
        (w.after t).filter (Mark.isKept reads seeks) := by
      rw [Watch.after, Watch.after]
      cases (({} : Extraction).piece? t).isNone <;> cases w.reads <;> cases reads <;> rfl
    have hinside : marksAmong hide
          (Watch.inside ⟨w.reads && reads, w.ignores, w.seeks && seeks⟩ t) t.children =
        (marksAmong hide (w.inside t) t.children).filter (Mark.isKept reads seeks) := by
      rw [marksAmong_eq_flatMap, marksAmong_eq_flatMap, List.filter_flatMap]
      refine List.flatMap_congr fun c hc => ?_
      rw [← ih c hc]
      cases t with
      | string => cases hc
      | element label tag attributes children =>
        simp only [Watch.inside]
        congr 2
        · rw [Bool.and_assoc, Bool.and_assoc, Bool.and_comm reads]
        · rw [Bool.and_assoc, Bool.and_assoc, Bool.and_comm seeks]
    rw [marksIn_eq, marksIn_eq, hbefore, hown, hafter, hinside]
    cases hide t.label <;> simp [List.filter_append]

/-- What the usual sources watch for is part of what there is. -/
theorem marksAmong_start (sources : List Source) (ts : List Node) :
    marksAmong hide (.start sources) ts =
      (marksAmong hide ⟨true, false, true⟩ ts).filter
        (Mark.isKept (sources.any Source.readsStrings)
          (sources.any fun source => !source.readsStrings)) := by
  rw [marksAmong_eq_flatMap, marksAmong_eq_flatMap, List.filter_flatMap]
  exact List.flatMap_congr fun t _ => by
    rw [← marksIn_filter]
    rfl

end

theorem signs_filter (reads seeks : Bool) (marks : List Mark) :
    signs (marks.filter (Mark.isKept reads seeks)) =
      (signs marks).filter (Sign.isKept reads seeks) := by
  induction marks with
  | nil => rfl
  | cons k rest ih =>
    have hhead : (if k.isKept reads seeks then k.retell Piece.plainly else []) =
        (k.retell Piece.plainly).filter (Sign.isKept reads seeks) := by
      cases k with
      | piece p =>
        have hall : ∀ l ∈ p.plainly, Sign.isKept reads seeks l = reads := fun l hl => by
          obtain ⟨c, -, rfl⟩ := List.mem_map.1 hl
          rfl
        rw [show Mark.isKept reads seeks (.piece p) = reads from rfl, Mark.retell,
          List.filter_congr hall]
        cases reads <;> simp
      | stop => cases reads <;> rfl
      | element m display => cases seeks <;> rfl
    rw [signs_cons, List.filter_append, ← hhead, ← ih, List.filter_cons]
    split <;> simp

/-! ### The strings of a container -/

/-- The strings in some signs. -/
def stringsIn (all : List Sign) : List String :=
  ((lines Sign.isStop [] all).map fun line => String.ofList (textOf line)).filter fun s =>
    !Text.isBlankText s

theorem map_string_filled (marks : List Mark) :
    (filled (blocksOf [] marks)).map Block.string = stringsIn (signs marks) := by
  have hstring : ∀ line : List Mark,
      String.ofList (textOf (signs line)) = (piecesOf line).string := fun line => by
    rw [textOf_signs, ← Block.string_toList, String.ofList_toList]
  rw [stringsIn, lines_nil_signs, List.map_map, filled,
    show ([] : Block) = piecesOf [] from rfl, blocksOf_eq, List.filter_map, List.map_map,
    List.filter_map]
  simp only [Function.comp_def, hstring]

/-! ### Finding again -/

/-- Whether a find is no element of which `gone` holds. -/
def Find.isLeft (gone : NodeId → Bool) : Find → Bool
  | sighting _ => true
  | element m _ => !gone m

namespace Session.Rendered

variable {s s' r : Session} {D : s.Rendered s'} {pairs : List Replacement}

/-- Whether a place is in something that was strictly inside a source. -/
def isLost (D : s.Rendered s') : NodeId → Bool :=
  s.document.isBelow (s.document.isEnclosed D.blocks D.read)

theorem covers_isLost (h : s.document.WellFormed) {n : Node} (hn : n ∈ s.document.nodes) :
    Covers (Revived.hides D) D.isLost n := fun c hc => by
  have hmute : s.document.text? n.label = none := by
    rw [← Option.not_isSome_iff_eq_none]
    intro htext
    obtain ⟨t, ht⟩ := Option.isSome_iff_exists.1 htext
    have hnone := kids_of_text? ht
    rw [h.kids_label hn, List.map_eq_nil_iff] at hnone
    rw [hnone] at hc
    cases hc
  rw [isLost, h.isBelow_child hn hc, Revived.hides, hmute]
  rfl

theorem below_of_isEnclosed {id : NodeId}
    (henclosed : s.document.isEnclosed D.blocks D.read id = true) :
    id ∈ (subtreesAll D.container.children).map label := by
  refine (D.blocks_eq ▸ Extraction.find_sublist {} D.container).subset ?_
  by_contra hnot
  rw [Revived.isEnclosed_eq_false hnot] at henclosed
  cases henclosed

theorem isLost_eq_false (h : s.document.WellFormed) {c : Node} (hc : c ∈ D.container.children) :
    D.isLost c.label = false :=
  h.isBelow_eq_false D.mem_nodes (fun _ henclosed => below_of_isEnclosed henclosed) hc

/-- The elements that a search passes over are those that are lost. -/
theorem elementsOf_hides (h : s.document.WellFormed) (w : Watch) :
    elementsOf (marksAmong (Revived.hides D) w D.container.children) =
      (elementsOf (marksAmong hideNone w D.container.children)).filter fun e => !D.isLost e.1 := by
  rw [elementsOf_hide (fun c hc => isLost_eq_false h hc) fun n hn =>
    covers_isLost h (mem_subtreesAll_of_below hn D.mem_nodes)]
  refine List.filter_congr fun e he => ?_
  rw [elementsOf_marksAmong] at he
  split at he
  · obtain ⟨n, hn, rfl⟩ := List.mem_map.1 he
    have hbelow := (Source.mathAmong_sublist _).subset hn
    have hhide : Revived.hides D n.label = false := Bool.eq_false_iff.2 fun hhide => by
      have hsome :=
        Revived.isSome_piece?_of_hides h (mem_subtreesAll_of_below hbelow D.mem_nodes) hhide
      rw [piece?_of_mem_mathAmong hn] at hsome
      cases hsome
    simp [Tree.sought, hhide]
  · cases he

namespace Revived

variable (V : D.Revived r pairs)

include V

theorem strings_eq (h : s.document.WellFormed) (hplain : s.document.IsPlain)
    (hs : Source.AreUsual s.sources) {container : Node}
    (hc : r.document.find? D.container.label = some container) :
    (({} : Extraction).find container).map Block.string = D.blocks.map Block.string := by
  rw [D.blocks_eq, find_eq_blocksOf container true, find_eq_blocksOf D.container true,
    ← blocksOf_hides (D := D) h, map_string_filled, map_string_filled, V.signs_eq h hplain hs hc]

/-- A discovery finds what the first one found, apart from what is lost. -/
theorem finds_eq (h : s.document.WellFormed) (hplain : s.document.IsPlain)
    (hs : Source.AreUsual s.sources) {container : Node}
    (hc : r.document.find? D.container.label = some container) {finds : List Find}
    (hsurvey : IsSurvey container (({} : Extraction).find container) s.sources finds) :
    finds = D.finds.filter (Find.isLeft D.isLost) := by
  have hlabels : container.labels.Nodup :=
    nodup_below V.restored.swapped.wellFormed.distinct (mem_of_find? hc).1
  have hsigns : signsOf s.sources container =
      signs (marksAmong (hides D) (.start s.sources) D.container.children) := by
    rw [signsOf, marksAmong_start, marksAmong_start, signs_filter, signs_filter,
      V.signs_eq h hplain hs hc]
  rw [hsurvey.eq_findsAmong hlabels rfl hs, hsigns]
  symm
  refine KeySorted.eq_findsAmong (D.survey.sorted.filter _) (D.pairwise_pieces h)
    (pairwise_placesOf (D.nodup_labels h) _ _) (isAnchored_marksAmong ..).hideNone ?_
    (blocksRead_eq_or s.sources D.blocks) ?_
  · rw [← blocksOf_eq [], show piecesOf [] = ([] : Block) from rfl, blocksOf_hides h, D.blocks_eq,
      ← filled_lines, ← blocksOf_eq []]
    rfl
  · refine ((D.survey.perm.trans (findsOf_perm hs _ _)).filter _).trans (.of_eq ?_)
    rw [elementsOf_hides h, elementsOf_marksAmong, List.filter_append, List.filter_map,
      List.filter_map]
    congr 2
    · exact List.filter_eq_self.2 fun _ _ => rfl

theorem body_eq (h : s.document.WellFormed) (hplain : s.document.IsPlain)
    (hs : Source.AreUsual s.sources) : r.document.body = s.document.body := by
  refine Varied.body_eq (?_ : s.document.Varied r.document fun u => (D.shown u).map (current pairs))
    h V.restored.swapped.wellFormed
  refine {
    root := V.restored.swapped.root.trans (D.rendering.root.trans (by rw [D.furnishes.root]))
    kids := fun p hp => V.kids hp
    shell := fun id hid => V.shell hid
    outside := fun id hid hout => V.shown_eq h hs hid fun hmem => ?_
    new := fun n hn _ v hv hne n' hn' => ?_ }
  · have hbelow := (D.blocks_eq ▸ Extraction.find_sublist {} D.container).subset hmem
    rw [Bool.eq_false_iff] at hout
    exact hout (isBelow_iff.2 ⟨D.container, D.mem_nodes,
      decide_eq_true (mem_of_find? D.body).2, hbelow⟩)
  · have hid : n.label ∈ s.document.ids := List.mem_map_of_mem hn
    obtain ⟨v', hv', rfl⟩ := List.mem_map.1 hv
    rcases D.shown_cases h hplain hid hv' with rfl | ⟨u, hu, hnode, htext⟩ | ⟨hnot, -⟩
    · exact absurd (V.current_of_mem_ids hid) hne
    · obtain ⟨t, ht, -⟩ := V.exists_text? hs hu htext (hnode ▸ hv')
      rw [find?_of_text? ht, Option.some.injEq] at hn'
      exact hn' ▸ isBodiless_string
    · rw [V.shown_eq h hs hid hnot] at hv
      exact absurd (List.mem_singleton.1 hv) hne

end Revived

end Session.Rendered

/-! ### Sessions -/

/-- Whether an item is no element of which `gone` holds. -/
def Item.isLeft (gone : NodeId → Bool) (item : Item) : Bool :=
  match item.math with
  | .text _ => true
  | .node m => !gone m

theorem Find.isLeft_item (container : Node) (blocks : List Block) (gone : NodeId → Bool)
    (f : Find) : (f.item container blocks).isLeft gone = f.isLeft gone := by
  cases f <;> rfl

/-- The session `r` has the sources back in the document `doc`, of which the sightings `read` were
typeset: its strings are the same, every element that is mathematics is where it was, and every
list of children reads as before, with the text of what was strictly inside a source in place of
it. -/
structure Session.Restores (r : Session) (doc : Document) (container : Node)
    (read : List Sighting) : Prop where
  strings : ∃ container', r.document.find? r.document.body = some container' ∧
    (({} : Extraction).find container').map Block.string =
      (({} : Extraction).find container).map Block.string
  stages : ∀ item ∈ r.items, item.stage = .typeset
  elements : ∀ e ∈ Source.elements doc container, ∀ p, e.1 ∈ doc.kids p → e.1 ∈ r.document.kids p
  root : r.document.root.label = doc.root.label
  shells : ∀ id ∈ doc.ids, r.document.shell? id = doc.shell? id
  streams : ∀ id ∈ doc.ids, r.document.stream id =
    (doc.kids id).flatMap (doc.symbolsBack (({} : Extraction).find container) read)
  same : (∀ id, doc.isEnclosed (({} : Extraction).find container) read id = false) →
    ∀ id ∈ doc.ids, r.document.stream id = doc.stream id

theorem symbolsBack_of_forall {doc : Document} {blocks : List Block} {read : List Sighting}
    (h : ∀ id, doc.isEnclosed blocks read id = false) (id : NodeId) :
    doc.symbolsBack blocks read id = doc.symbols id := by
  rw [symbolsBack, h]
  split <;> rfl

/-- A session that is rendered, and then has its sources back and begins anew. -/
theorem exists_revived {doc : Document} (hdoc : doc.WellFormed) (hplain : doc.IsPlain)
    {sources : List Source} (hs : Source.AreUsual sources) :
    ∃ s₀ s r s₁, ∃ (D : ({ document := doc, sources } : Session).Rendered s)
      (pairs : List Replacement),
      ({ document := doc, sources } : Session).discover none = .ok s₀ ∧
      ({ document := doc, sources } : Session).render = .ok s ∧
      s.removeFromDocument true = .ok r ∧
      r.reset.discover none = .ok s₁ ∧
      D.Revived r pairs ∧
      (∃ container, r.document.find? r.document.body = some container ∧
        (({} : Extraction).find container).map Block.string = D.blocks.map Block.string) ∧
      s₀.items = D.finds.map (Find.item D.container D.blocks) ∧
      s₁.items.map Item.wording =
        (D.finds.filter (Find.isLeft D.isLost)).map Find.wording := by
  have hfresh : Session.IsFresh { document := doc, sources } := ⟨hs, rfl, rfl, rfl, rfl, rfl⟩
  obtain ⟨s, hrender, ⟨D⟩⟩ := render_rendered hdoc hplain hfresh
  have hsettled := D.settled hdoc hplain hs
  obtain ⟨r, pairs, hremove, hfst, hrestored⟩ := hsettled.exists_restored
  have V : D.Revived r pairs := ⟨hsettled, hrestored, hfst⟩
  obtain ⟨container, hc⟩ := exists_body r.document
  have hc' : r.document.find? D.container.label = some container := by
    rw [(mem_of_find? D.body).2, ← V.body_eq hdoc hplain hs, hc]
  -- the first discovery
  obtain ⟨finds₀, hsurvey₀, hdiscover₀⟩ := discover_survey hdoc hfresh D.body
  rw [← D.blocks_eq] at hsurvey₀ hdiscover₀
  have hfinds : finds₀ = D.finds :=
    hsurvey₀.sorted.eq_of_perm D.survey.sorted (hsurvey₀.perm.trans D.survey.perm.symm)
  -- the second one
  have hfresh' : r.reset.IsFresh := by
    rw [hrestored.session]
    exact ⟨D.sources ▸ hs, D.containers, D.extraction, rfl, rfl, rfl⟩
  have hsources : r.reset.sources = sources := by
    rw [hrestored.session]
    exact D.sources
  obtain ⟨finds, hsurvey, hdiscover⟩ :=
    @discover_survey r.reset hrestored.swapped.wellFormed hfresh' _ hc
  rw [hsources] at hsurvey
  refine ⟨_, s, r, _, D, pairs, hdiscover₀, hrender, hremove, hdiscover, V,
    ⟨container, hc, V.strings_eq hdoc hplain hs hc'⟩, ?_, ?_⟩
  · rw [← hfinds]
    rfl
  · rw [← V.finds_eq hdoc hplain hs hc' hsurvey]
    simp only [Session.discovered, Session.report, Session.finish, List.map_map,
      Function.comp_def, Find.wording_item]

/-- Restoring the sources of a rendered session leaves the document as it was, apart from what was
strictly inside a source, and a discovery finds again what the first one found, apart from the
elements in that. -/
theorem render_restore (doc : Document) (hdoc : doc.WellFormed) (hplain : doc.IsPlain)
    (sources : List Source) (hs : Source.AreUsual sources) :
    ∃ s₀ s r s₁ container,
      ({ document := doc, sources } : Session).discover none = .ok s₀ ∧
      ({ document := doc, sources } : Session).render = .ok s ∧
      s.removeFromDocument true = .ok r ∧
      r.reset.discover none = .ok s₁ ∧
      doc.find? doc.body = some container ∧
      let blocks := ({} : Extraction).find container
      let read := sightingsRead sources blocks
      r.Restores doc container read ∧
        s₁.items.map Item.wording = (s₀.items.filter
          (Item.isLeft (doc.isBelow (doc.isEnclosed blocks read)))).map Item.wording := by
  obtain ⟨s₀, s, r, s₁, D, pairs, hdiscover₀, hrender, hremove, hdiscover, V, hstrings, hitems₀,
    hitems⟩ := exists_revived hdoc hplain hs
  have hblocks := D.blocks_eq
  have hread : D.read = sightingsRead sources (({} : Extraction).find D.container) := hblocks ▸ rfl
  have hstreams : ∀ id ∈ doc.ids, r.document.stream id = (doc.kids id).flatMap
      (doc.symbolsBack (({} : Extraction).find D.container)
        (sightingsRead sources (({} : Extraction).find D.container))) := fun id hid =>
    hread ▸ hblocks ▸ V.stream_eq hdoc hplain hs hid
  refine ⟨s₀, s, r, s₁, D.container, hdiscover₀, hrender, hremove, hdiscover, D.body, {
    strings := hblocks ▸ hstrings
    stages := fun item hitem => ?_
    elements := fun e he p hp => ?_
    root := V.restored.swapped.root.trans (D.rendering.root.trans (by rw [D.furnishes.root]))
    shells := fun id hid => V.shell hid
    streams := hstreams
    same := fun hnone id hid => ?_ }, ?_⟩
  · rw [V.restored.session] at hitem
    obtain ⟨i, hi, rfl⟩ := List.mem_iff_getElem.1 hitem
    rw [List.getElem_zipWith]
    rfl
  · rw [Source.elements_eq hdoc D.mem_nodes] at he
    obtain ⟨n, hn, rfl⟩ := List.mem_map.1 he
    have hout := (isElement_of_mem_mathAmong hdoc D.mem_nodes hn).outside
    rw [← hblocks] at hout
    rw [V.kids (mem_ids_of_mem_kids hp).2]
    exact List.mem_flatMap.2 ⟨_, hp, by
      rw [V.shown_eq hdoc hs (mem_ids_of_mem_kids hp).1 hout]
      exact List.mem_singleton_self _⟩
  · rw [hstreams id hid, stream]
    exact List.flatMap_congr fun u _ => symbolsBack_of_forall hnone u
  · rw [hitems, hitems₀, ← hread, ← hblocks]
    simp only [List.map_map, Function.comp_def, Find.wording_item, List.filter_map,
      Find.isLeft_item]
    rfl

/-- A paragraph with mathematics that goes on after a line break, in which an element stands. -/
def Document.lostFormula : Document :=
  .ofFragments [.build "p" [] [.text "$x",
    .build "br" [] [.build "math" [] [.build "mi" [] [.text "z"]]], .text "y$"]]

theorem Document.isPlain_lostFormula : lostFormula.IsPlain := by
  rw [IsPlain]
  decide

/-- What is seen around the line break. -/
def Sighting.overBreak : Sighting where
  math := "x\ny"
  opener := "$"
  closer := "$"
  string := 0
  start := 0
  stop := 5
  display := false

theorem overBreak_error? : Sighting.overBreak.error? = none := by
  have htokens : tokenize Sighting.overBreak.math =
      .ok [⟨.letter, "x", 0⟩, ⟨.letter, "y", 2⟩] := by decide +kernel
  rw [Sighting.error?, readTex_of_runFor 3 htokens rfl rfl]
  rfl

theorem sightingsRead_lostFormula :
    sightingsRead [.tex, .mathml] (({} : Extraction).find lostFormula.root) = [.overBreak] := by
  have hstrings : (blocksRead [.tex, .mathml] (({} : Extraction).find lostFormula.root)).map
      Block.string = ["$x\ny$"] := by
    decide +kernel
  have hopen : Delimiters.opening? {} ['$', 'x', '\n', 'y', '$'] =
      some (.math ['$'] false, 0) := by
    rw [Delimiters.opening?, Delimiters.delimiterAt?, Delimiters.openers_usual]
    rfl
  have hseen : Delimiters.seen? 0 0 ['$'] ['x', '\n', 'y', '$'] (.math ['$'] false) =
      some (.overBreak, []) := by decide +kernel
  have hscan : Delimiters.Scans {} 0 0 "$x\ny$".toList [.overBreak] 5 [] :=
    .seen hopen hseen (.refl ..)
  rw [sightingsRead, hstrings, hscan.find_singleton, List.filter_singleton, overBreak_error?]
  rfl

theorem isBelow_lostFormula : lostFormula.isBelow
    (lostFormula.isEnclosed (({} : Extraction).find lostFormula.root) [.overBreak]) 4 = true := by
  decide +kernel

/-- The line break gives way to the text that it stands for. -/
theorem render_restore_lostFormula :
    (lostFormula.WellFormed ∧ lostFormula.IsPlain ∧ Source.AreUsual [.tex, .mathml]) ∧
    lostFormula.stream 1 = "$x".toList.map .char ++ .place 3 :: "y$".toList.map .char ∧
    ∃ s₀ s r s₁,
      ({ document := lostFormula, sources := [.tex, .mathml] } : Session).discover none = .ok s₀ ∧
      ({ document := lostFormula, sources := [.tex, .mathml] } : Session).render = .ok s ∧
      s.removeFromDocument true = .ok r ∧
      r.reset.discover none = .ok s₁ ∧
      r.document.stream 1 = "$x\ny$".toList.map .char ∧
      ∀ item ∈ s₁.items, item.math ≠ .node 4 := by
  have hs : Source.AreUsual [.tex, .mathml] := .inr (.inr (.inl rfl))
  obtain ⟨s₀, s, r, s₁, container, hdiscover₀, hrender, hremove, hdiscover, hbody, hrestores,
    hitems⟩ :=
    render_restore lostFormula (wellFormed_ofFragments _) isPlain_lostFormula _ hs
  obtain rfl : lostFormula.root = container := Option.some.inj (Eq.trans rfl hbody)
  rw [sightingsRead_lostFormula] at hrestores hitems
  refine ⟨⟨wellFormed_ofFragments _, isPlain_lostFormula, hs⟩, by decide, s₀, s, r, s₁,
    hdiscover₀, hrender, hremove, hdiscover, ?_, fun item hitem hmath => ?_⟩
  · rw [hrestores.streams 1 (by decide)]
    decide +kernel
  · have hwording := List.mem_map_of_mem (f := Item.wording) hitem
    rw [hitems] at hwording
    obtain ⟨item₀, hitem₀, heq⟩ := List.mem_map.1 hwording
    have hleft := (List.mem_filter.1 hitem₀).2
    rw [Item.isLeft, (Prod.mk.inj heq).1, hmath] at hleft
    simp [isBelow_lostFormula] at hleft

/-- The element in the line break is not found again. -/
theorem rediscover_lostFormula :
    ∃ s₀ s r s₁,
      ({ document := lostFormula, sources := [.tex, .mathml] } : Session).discover none = .ok s₀ ∧
      ({ document := lostFormula, sources := [.tex, .mathml] } : Session).render = .ok s ∧
      s.removeFromDocument true = .ok r ∧
      r.reset.discover none = .ok s₁ ∧
      s₁.items.map Item.wording ≠ s₀.items.map Item.wording := by
  have hs : Source.AreUsual [.tex, .mathml] := .inr (.inr (.inl rfl))
  obtain ⟨s₀, s, r, s₁, D, pairs, hdiscover₀, hrender, hremove, hdiscover, -, -, hitems₀, hitems⟩ :=
    exists_revived (wellFormed_ofFragments _ : lostFormula.WellFormed) isPlain_lostFormula hs
  have hcontainer : D.container = lostFormula.root := Option.some.inj (D.body.symm.trans rfl)
  have hblocks : D.blocks = ({} : Extraction).find lostFormula.root := hcontainer ▸ D.blocks_eq
  have hfind : .element 4 false ∈ D.finds := by
    refine D.survey.perm.mem_iff.2 (List.mem_flatMap.2 ⟨.mathml, by simp, ?_⟩)
    obtain ⟨n, hn, hlabel, hdisplay⟩ : ∃ n ∈ Source.mathAmong lostFormula.root.children,
        n.label = 4 ∧ Source.isDisplay n = false := by decide +kernel
    exact mem_finds_mathml.2 ⟨n, hcontainer ▸ hn, by rw [hlabel, hdisplay]⟩
  have hlost : D.isLost 4 = true := by
    rw [Session.Rendered.isLost, Session.Rendered.read, hblocks]
    rw [sightingsRead_lostFormula]
    exact isBelow_lostFormula
  refine ⟨s₀, s, r, s₁, hdiscover₀, hrender, hremove, hdiscover, fun heq => ?_⟩
  -- the filter that the second discovery is would keep the element
  have hlength := congrArg List.length heq
  rw [hitems, hitems₀] at hlength
  simp only [List.length_map] at hlength
  have hall := List.filter_eq_self.1 (List.filter_sublist.eq_of_length hlength)
  have hleft := hall _ hfind
  rw [Find.isLeft, hlost] at hleft
  cases hleft

end Formulary
