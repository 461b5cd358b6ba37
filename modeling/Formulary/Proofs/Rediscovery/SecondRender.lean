import Formulary.Proofs.Rediscovery.UnreadText

/-! # A rendered session that begins anew

A discovery in a rendered document finds what could not be read at first, apart from what was in an
element that has been replaced, and nothing else.  So rendering once more changes nothing
(`render_again`). -/

namespace Formulary

open Formulary.Tree Document Insertion

/-- An item that was found in running text is below a place for which `tops` holds. -/
def Item.isWithin (doc : Document) (tops : NodeId → Bool) (item : Item) : Bool :=
  item.start.node.any (doc.isBelow tops)

section

variable {doc : Document} {container : Node} {blocks : List Block} {finds : List Find}

theorem map_fst_itemsFailed : (itemsFailed container blocks finds).map Prod.fst =
    ((finds.filterMap Find.sighting?).filter fun x => x.error?.isSome).map fun x =>
      Find.tried container blocks (.sighting x) := by
  rw [itemsFailed, List.map_filterMap, List.filter_filterMap, List.map_filterMap]
  refine List.filterMap_congr fun f _ => ?_
  cases f with
  | sighting x => cases hx : x.error? <;> simp [Find.error?, Find.sighting?, hx, Option.filter_some]
  | element m display => rfl

theorem map_sighting_filterMap (h : ∀ f ∈ finds, ∃ x, f = .sighting x) :
    (finds.filterMap Find.sighting?).map .sighting = finds := by
  induction finds with
  | nil => rfl
  | cons f rest ih =>
    obtain ⟨⟨x, rfl⟩, hrest⟩ := List.forall_mem_cons.1 h
    exact congrArg (_ :: ·) (ih hrest)

theorem filterMap_find?_tellOf (blocks : List Block) (xs : List Insertion) (p : Piece) :
    (tellOf blocks xs Symbol.broken p).filterMap Sign.find? = [] := by
  rw [tellOf]
  split
  · exact filterMap_find?_plainly p
  · refine List.filterMap_eq_nil_iff.2 fun k hk => ?_
    obtain ⟨symbol, -, hk⟩ := List.mem_flatMap.1 hk
    cases symbol <;> simp [Symbol.broken] at hk <;> exact hk ▸ rfl

theorem wording_sighting (xs : List Sighting) : (xs.map fun x => (Find.sighting x).wording) =
    (xs.map Sighting.content).map fun c => (.text c.1, c.2.1, c.2.2.1, c.2.2.2) := by
  rw [List.map_map]
  rfl

theorem Layout.isBelow_eq (layout : Layout doc blocks) (h : doc.WellFormed) {tops : NodeId → Bool}
    {block : Block} (hblock : block ∈ blocks) {p q : Piece} (hp : p ∈ block) (hq : q ∈ block) :
    doc.isBelow tops p.node = doc.isBelow tops q.node := by
  obtain ⟨host, before, after, hkids⟩ := layout.host block hblock
  have hkid : ∀ r ∈ block, r.node ∈ doc.kids host := fun r hr => by
    rw [hkids]
    exact List.mem_append_left _ (List.mem_append_right _ (List.mem_map_of_mem hr))
  rw [h.isBelow_kid (hkid p hp), h.isBelow_kid (hkid q hq)]

theorem Layout.isWithin_eq (layout : Layout doc blocks) (h : doc.WellFormed)
    {tops : NodeId → Bool} {j : Nat} {block : Block} (hget : blocks[j]? = some block)
    {x : Sighting} (hx : x ∈ Delimiters.findFrom {} j 0 block.chars) :
    (Find.tried container blocks (.sighting x)).isWithin doc tops =
      !block.all fun p => !doc.isBelow tops p.node := by
  obtain ⟨b, before, after, piece, hb, heq, hstart, -⟩ :=
    @exists_start container _ _ ((findFrom_sublist_find hget).subset hx)
  rw [(Delimiters.findFrom_spec x hx).1, Int.toNat_natCast, hget, Option.some.injEq] at hb
  subst hb
  have hpiece : piece ∈ block := by simp [heq]
  have hwithin : (Find.tried container blocks (.sighting x)).isWithin doc tops =
      (Find.item container blocks (.sighting x)).isWithin doc tops := rfl
  rw [hwithin, Item.isWithin, hstart, Option.any_some]
  cases hbelow : doc.isBelow tops piece.node with
  | true =>
    symm
    rw [Bool.not_eq_true', List.all_eq_false]
    exact ⟨piece, hpiece, by simp [hbelow]⟩
  | false =>
    symm
    rw [Bool.not_eq_false', List.all_eq_true]
    intro p hp
    rw [layout.isBelow_eq h (List.mem_of_getElem? hget) hp hpiece, hbelow]
    rfl

end

namespace Session.Rendered

variable {s s' : Session} (D : s.Rendered s')

section

variable (h : s.document.WellFormed) (hs : Source.AreUsual s.sources)

include h hs

/-- What could not be read, apart from what is in an element that was replaced. -/
theorem map_wording_failed (hplain : s.document.IsPlain) :
    ((s'.errors.map Prod.fst).filter fun item =>
      !item.isWithin s.document s'.replaces).map Item.wording =
        ((kept (s.document.isBelow s'.replaces) (blocksRead s.sources D.blocks)).flatMap fun block =>
          failuresIn block.chars).map fun c => (.text c.1, c.2.1, c.2.2.1, c.2.2.2) := by
  have layout := D.layout h hplain
  have hitem : Item.wording ∘ (fun x => Find.tried D.container D.blocks (.sighting x)) =
      fun x => (Find.sighting x).wording := funext fun x => Find.wording_item ..
  rw [D.errors, map_fst_itemsFailed, D.survey.sightings hs (D.pairwise_pieces h), List.filter_map,
    List.map_map, hitem, wording_sighting]
  congr 1
  rcases blocksRead_eq_or s.sources D.blocks with heq | heq
  · rw [heq]
    refine (map_content_find fun j block hget x hx =>
      layout.isWithin_eq h hget hx).trans ?_
    simp only [Bool.not_not]
    rfl
  · rw [heq]
    rfl

omit h in
theorem replaces_of_mem_mathAmong
    (hseeks : (s.sources.any fun source => !source.readsStrings) = true) {n : Node}
    (hn : n ∈ Source.mathAmong D.container.children) : s'.replaces n.label = true := by
  have hfind : .element n.label (Source.isDisplay n) ∈ D.finds := by
    refine D.survey.perm.mem_iff.2 ((findsOf_perm hs D.container D.blocks).mem_iff.2 ?_)
    rw [if_pos hseeks]
    exact List.mem_append_right _ (List.mem_map_of_mem (List.mem_map_of_mem hn))
  obtain ⟨t, -, hitem⟩ := D.exists_inserted hfind rfl
  exact replaces_of_inserted hitem

/-- No element that is sought is left in a rendered document. -/
theorem elements_rendered (hplain : s.document.IsPlain)
    (hseeks : (s.sources.any fun source => !source.readsStrings) = true) {container : Node}
    (hc : s'.document.find? D.container.label = some container) :
    Source.mathAmong container.children = [] := by
  have hsigns := congrArg (List.filterMap Sign.find?) (D.signs_rendered h hs hplain hc true)
  have hleft : elementsOf (marksAmong D.hidden ⟨true, false, true⟩ D.container.children) = [] := by
    rw [@elementsOf_hide D.hidden (s.document.isBelow D.hidden) _ _ (fun c hc => ?_)
      fun n hn c hc => ?_]
    · refine List.filter_eq_nil_iff.2 fun e he => ?_
      rw [elementsOf_marksAmong, if_pos rfl] at he
      obtain ⟨n, hn, rfl⟩ := List.mem_map.1 he
      have hhidden : D.hidden n.label = true := by
        rw [hidden, D.replaces_of_mem_mathAmong hs hseeks hn, Bool.true_or]
      simp [Tree.sought, hhidden]
    · refine h.isBelow_eq_false D.mem_nodes (fun id hid => ?_) hc
      rw [hidden, Bool.or_eq_true] at hid
      exact hid.elim (D.below_of_replaces h hs) below_of_isEnclosed
    · exact h.isBelow_child (mem_subtreesAll_of_below hn D.mem_nodes) hc
  rw [filterMap_find?_signs, filterMap_find?_retell (filterMap_find?_tellOf _ _), hleft,
    elementsOf_marksAmong, if_pos rfl, List.map_nil, List.map_eq_nil_iff,
    List.map_eq_nil_iff] at hsigns
  exact hsigns

/-- A discovery in the rendered document finds what could not be read, apart from what is in an
element that was replaced. -/
theorem finds_again (hplain : s.document.IsPlain) {container : Node}
    (hc : s'.document.find? D.container.label = some container) {finds : List Find}
    (hsurvey : IsSurvey container (({} : Extraction).find container) s.sources finds) :
    ∃ xs : List Sighting, finds = xs.map .sighting ∧
      xs.map Sighting.content =
        (kept (s.document.isBelow s'.replaces) (blocksRead s.sources D.blocks)).flatMap fun block =>
          failuresIn block.chars := by
  have hlabels := nodup_below D.rendering.wellFormed.distinct (mem_of_find? hc).1
  have hnone : (if s.sources.any (fun source => !source.readsStrings) then
      (Source.mathAmong container.children).map sought else []) = [] := by
    split
    · rename_i hseeks
      rw [D.elements_rendered h hs hplain hseeks hc, List.map_nil]
    · rfl
  have hall : ∀ f ∈ finds, ∃ x, f = .sighting x := fun f hf => by
    have hmem := (hsurvey.perm.trans (findsOf_perm hs _ _)).mem_iff.1 hf
    rw [hnone, List.map_nil, List.append_nil] at hmem
    obtain ⟨x, -, rfl⟩ := List.mem_map.1 hmem
    exact ⟨x, rfl⟩
  have hseen := hsurvey.sightings hs (find_pairwise_precedes {} hlabels)
  refine ⟨_, (hseen ▸ map_sighting_filterMap hall).symm, ?_⟩
  cases hreads : s.sources.any Source.readsStrings with
  | true =>
    rw [blocksRead, blocksRead, if_pos hreads, if_pos hreads]
    exact D.map_content_rendered h hs hplain hreads hc
  | false =>
    rw [blocksRead, blocksRead, if_neg (by simp [hreads]), if_neg (by simp [hreads])]
    rfl

omit h hs in
theorem error?_of_content {xs : List Sighting} {blocks : List Block}
    (hcontent : xs.map Sighting.content = blocks.flatMap fun block => failuresIn block.chars)
    {x : Sighting} (hx : x ∈ xs) : x.error?.isSome = true := by
  have hmem := List.mem_map_of_mem (f := Sighting.content) hx
  rw [hcontent] at hmem
  obtain ⟨block, -, hmem⟩ := List.mem_flatMap.1 hmem
  obtain ⟨y, hy, heq⟩ := List.mem_map.1 hmem
  have hmath : y.math = x.math := congrArg Prod.fst heq
  have herror := (List.mem_filter.1 hy).2
  rwa [Sighting.error?, hmath] at herror

end

end Session.Rendered

/-- Where nothing that was found can be read, the stages that follow leave the document as it is. -/
theorem Session.exists_stages {s : Session} {container : Node} {blocks : List Block}
    {finds : List Find} (hitems : s.items = finds.map (Find.item container blocks))
    (hin : ∀ f ∈ finds, f.IsIn s.document) (hnone : ∀ f ∈ finds, f.isRead = false)
    (hfinished : s.finished = [.discover]) :
    ∃ s₁ s₂ s₃, s.compile = .ok s₁ ∧ s₁.typeset = .ok s₂ ∧ s₂.update = .ok s₃ ∧
      s₃.document = s.document := by
  obtain ⟨reports, hcompile⟩ := compile_finds hin hitems (by rw [hfinished]; decide)
  have hread : itemsRead s.document container blocks finds = [] := by
    rw [itemsRead, List.filter_eq_nil_iff.2 fun f hf => by rw [hnone f hf]; decide]
    rfl
  rw [hread] at hcompile
  refine ⟨_, _, _, hcompile, typeset_eq ?_ rfl, update_unset (by simp [Session.finish]) ?_, rfl⟩
  · simp [Session.finish, hfinished]
  · simp [Session.finish, hfinished]

/-- A discovery in a rendered document finds what could not be read, in the same order, apart from
what is in an element that was replaced, and the stages that follow leave the document as it is. -/
theorem render_again (doc : Document) (hdoc : doc.WellFormed) (hplain : doc.IsPlain)
    (sources : List Source) (hs : Source.AreUsual sources) :
    ∃ s s₁ s₂ s₃ s₄,
      ({ document := doc, sources } : Session).render = .ok s ∧
      s.reset.discover none = .ok s₁ ∧
      s₁.items.map Item.wording = ((s.errors.map Prod.fst).filter fun item =>
        !item.isWithin doc s.replaces).map Item.wording ∧
      s₁.compile = .ok s₂ ∧ s₂.typeset = .ok s₃ ∧ s₃.update = .ok s₄ ∧
      s₄.document = s.document := by
  have hfresh : Session.IsFresh { document := doc, sources } := ⟨hs, rfl, rfl, rfl, rfl, rfl⟩
  obtain ⟨s, hrender, ⟨D⟩⟩ := render_rendered hdoc hplain hfresh
  -- the second discovery is in the element that the first one was in, as the body stays in place
  obtain ⟨container, hc⟩ := exists_body s.document
  have hc' : s.document.find? D.container.label = some container := by
    rw [(mem_of_find? D.body).2, ← D.body_eq hdoc hs hplain, hc]
  have hfresh' : s.reset.IsFresh := ⟨D.sources ▸ hs, D.containers, D.extraction, rfl, rfl, rfl⟩
  obtain ⟨finds, hsurvey, hdiscover⟩ :=
    @discover_survey s.reset D.rendering.wellFormed hfresh' _ hc
  obtain ⟨xs, rfl, hcontent⟩ := D.finds_again hdoc hs hplain hc' (D.sources ▸ hsurvey)
  have hunread : ∀ f ∈ xs.map Find.sighting, f.isRead = false := fun f hf => by
    obtain ⟨x, hx, rfl⟩ := List.mem_map.1 hf
    rw [Find.isRead, Find.error?, Option.isNone_eq_false_iff]
    exact Session.Rendered.error?_of_content hcontent hx
  obtain ⟨s₂, s₃, s₄, hcompile, htypeset, hupdate, hsame⟩ := Session.exists_stages
    (s := s.reset.discovered container (({} : Extraction).find container) (xs.map .sighting)) rfl
    (fun f hf => by
      obtain ⟨x, -, rfl⟩ := List.mem_map.1 hf
      trivial) hunread rfl
  refine ⟨s, _, s₂, s₃, s₄, hrender, hdiscover, ?_, hcompile, htypeset, hupdate, hsame⟩
  rw [D.map_wording_failed hdoc hs hplain, ← hcontent, ← wording_sighting]
  simp only [Session.discovered, Session.report, Session.finish, List.map_map, Function.comp_def,
    Find.wording_item]

/-- A paragraph with two formulas, one of which cannot be read, and an element that holds a text
which is not a formula either. -/
def Document.failingFormula : Document :=
  .ofFragments [.build "p" [] [.text "Let $x$ and $\\y$ be ",
    .build "math" [] [.build "mtext" [] [.text "$\\z$"]]]]

theorem Document.isPlain_failingFormula : failingFormula.IsPlain := by
  rw [IsPlain]
  decide

theorem render_again_failingFormula :
    (failingFormula.WellFormed ∧ failingFormula.IsPlain ∧ Source.AreUsual [.tex, .mathml]) ∧
    ∃ s s₁ s₂ s₃ s₄,
      ({ document := failingFormula, sources := [.tex, .mathml] } : Session).render = .ok s ∧
      s.reset.discover none = .ok s₁ ∧
      s₁.items.map Item.wording = ((s.errors.map Prod.fst).filter fun item =>
        !item.isWithin failingFormula s.replaces).map Item.wording ∧
      s₁.compile = .ok s₂ ∧ s₂.typeset = .ok s₃ ∧ s₃.update = .ok s₄ ∧
      s₄.document = s.document :=
  have hs : Source.AreUsual [.tex, .mathml] := .inr (.inr (.inl rfl))
  ⟨⟨wellFormed_ofFragments _, isPlain_failingFormula, hs⟩,
    render_again failingFormula (wellFormed_ofFragments _) isPlain_failingFormula _ hs⟩

end Formulary
