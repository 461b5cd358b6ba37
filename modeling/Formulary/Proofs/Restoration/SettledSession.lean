import Formulary.Proofs.Restoration.Cycles

/-! # A rendered session is settled

After all stages of a session every typeset form stands among the children of a place of the
document it was made for, and every element that was replaced stands beside it
(`Session.Rendered.settled`).  So restoring and updating lead to and fro between two trees
(`render_alternate`). -/

namespace Formulary

open Formulary.Tree Document

namespace Target

variable {targets : List Target}

theorem insertions_pairwise (h : targets.Pairwise Precedes) :
    (insertions targets).Pairwise fun x y => y.string = x.string → x.stop ≤ y.start := by
  induction targets with
  | nil => exact .nil
  | cons t rest ih =>
    obtain ⟨hhead, htail⟩ := List.pairwise_cons.1 h
    cases t with
    | element m root => exact ih htail
    | stretch x =>
      exact List.pairwise_cons.2 ⟨fun y hy => hhead _ (mem_insertions.1 hy), ih htail⟩

theorem swap_of_mem (h : targets.Pairwise Precedes) {m root : NodeId}
    (hmem : element m root ∈ targets) : swap targets m = root := by
  induction targets with
  | nil => cases hmem
  | cons t rest ih =>
    obtain ⟨hhead, htail⟩ := List.pairwise_cons.1 h
    rcases List.mem_cons.1 hmem with rfl | hrest
    · rw [swap, if_pos rfl]
    · cases t with
      | stretch x => exact ih htail hrest
      | element m' root' =>
        have hne : m ≠ m' := fun heq => hhead _ hrest heq.symm
        rw [swap, if_neg hne, ih htail hrest]

theorem swap_eq_or (targets : List Target) (id : NodeId) :
    swap targets id = id ∨ ∃ t ∈ targets, t.root = swap targets id := by
  induction targets with
  | nil => exact .inl rfl
  | cons t rest ih =>
    have hrest := ih.imp_right fun ⟨t', ht', hroot⟩ =>
      (⟨t', List.mem_cons_of_mem _ ht', hroot⟩ : ∃ t' ∈ t :: rest, t'.root = swap rest id)
    cases t with
    | stretch x => exact hrest
    | element m root =>
      rw [swap]
      split
      · exact .inr ⟨_, List.mem_cons_self .., rfl⟩
      · exact hrest

theorem exists_of_isPut {v : NodeId} (h : IsPut (insertions targets) (swap targets) v) :
    ∃ t ∈ targets, t.root = v := by
  rcases h with ⟨x, hx, rfl⟩ | ⟨id, hne, rfl⟩
  · exact ⟨_, mem_insertions.1 hx, rfl⟩
  · exact (swap_eq_or targets id).resolve_left hne.symm

end Target

section

variable {doc₀ doc : Document} {blocks : List Block} {block : Block} {rank : NodeId → Nat}
  {xs : List Insertion} {swap : NodeId → NodeId} {replaced : List Replacement}
  {shown : NodeId → List NodeId}

/-- A typeset form stands among the children of the place whose text it came from. -/
theorem Rendering.root_mem_kids (R : Rendering doc₀ blocks rank xs swap doc replaced shown)
    (layout : Layout doc₀ blocks)
    (horder : xs.Pairwise fun x y => y.string = x.string → x.stop ≤ y.start) {x : Insertion}
    (hx : x ∈ xs) (hsource : IsSource blocks block x) {p : NodeId} {ahead behind : List NodeId}
    (hkids : doc₀.kids p = ahead ++ block.map Piece.node ++ behind) : x.root ∈ doc.kids p := by
  obtain ⟨before, z, after, heq, hle, hlt⟩ :=
    Block.exists_piece (Nat.lt_of_lt_of_le hsource.lt hsource.le)
  obtain ⟨c, hc, hne⟩ := hsource.first
  have htext := layout.text?_of_char hsource.mem hc hne heq hle hlt
  have hz : z.node ∈ doc₀.kids p := by simp [hkids, heq]
  have hseen := Insertion.place_mem_shownText horder hx hsource.lt hle hlt
  rw [← R.text _ (hsource.occurs heq) htext] at hseen
  obtain ⟨v, hv, hplace⟩ := List.mem_flatMap.1 hseen
  have hroot : v = x.root := by
    rw [Document.symbols] at hplace
    split at hplace
    · simp at hplace
    · exact (Symbol.place.inj (List.mem_singleton.1 hplace)).symm
  rw [R.kids p (mem_ids_of_mem_kids hz).2]
  exact List.mem_flatMap.2 ⟨_, hz, hroot ▸ hv⟩

end

/-! ### The items of a rendered session -/

section

variable {doc doc₁ : Document} {container : Node} {blocks : List Block} {sources : List Source}
  {added : List Node} {f : Find} {t : Node}

theorem Find.names_inserted (doc : Document) (container : Node) (blocks : List Block) (f : Find)
    (root : NodeId) : (f.inserted doc container blocks root).Names root := by
  cases f <;> exact ⟨rfl, rfl, rfl, rfl, rfl⟩

theorem Find.math_inserted_sighting (x : Sighting) (root : NodeId) :
    ((Find.sighting x).inserted doc container blocks root).math = .text x.math := rfl

theorem Find.math_inserted_element (m : NodeId) (display : Bool) (root : NodeId) :
    ((Find.element m display).inserted doc container blocks root).math = .node m := rfl

/-- An element that has given way to its typeset form stands beside the document. -/
theorem Rendering.isLoose_of_swap {targets : List Target} {doc : Document}
    {replaced : List Replacement} {shown : NodeId → List NodeId} {rank : NodeId → Nat}
    (R : Rendering doc₁ blocks rank (Target.insertions targets) (Target.swap targets) doc replaced
      shown) (hdoc : doc₁.WellFormed) {m p : NodeId} (hm : m ∈ doc₁.kids p)
    (hout : m ∉ blocks.flatten.map Piece.node) (hroots : ∀ target ∈ targets, target.root ≠ m)
    (hswap : Target.swap targets m ≠ m) : doc.IsLoose m := by
  have hid := (mem_ids_of_mem_kids hm).1
  refine R.wellFormed.isLoose_iff.2 ⟨R.ids m hid, fun heq => ?_, fun q hq => ?_⟩
  · exact hdoc.root_not_mem_kids p (R.root ▸ heq ▸ hm)
  · by_cases hmem : q ∈ doc₁.ids
    · rw [R.kids q hmem] at hq
      obtain ⟨u, -, hshown⟩ := List.mem_flatMap.1 hq
      rcases R.own u m hshown with rfl | hfresh | ⟨hput, -⟩
      · rw [(R.other m hid hout).1, List.mem_singleton] at hshown
        exact hswap hshown.symm
      · exact hdoc.fresh_not_mem hfresh hid
      · obtain ⟨target, htarget, hroot⟩ := Target.exists_of_isPut hput
        exact hroots target htarget hroot
    · rw [(R.added q (mem_ids_of_mem_kids hq).2 hmem).2] at hq
      cases hq

theorem seated_of_find {finds : List Find} {doc' : Document} {replaced : List Replacement}
    {shown : NodeId → List NodeId} (h : doc.WellFormed) (layout : Layout doc blocks)
    (hc : container ∈ doc.nodes) (hblocks : blocks = ({} : Extraction).find container)
    (hs : Source.AreUsual sources) (hfurnished : doc.Furnished doc₁ added)
    (R : Rendering doc₁ blocks doc₁.position (Target.insertions (targetsOf finds added))
      (Target.swap (targetsOf finds added)) doc' replaced shown)
    (hpairwise : (targetsOf finds added).Pairwise Target.Precedes)
    (hf : f ∈ findsOf sources container blocks) (ht : t ∈ added)
    (hmem : f.target t.label ∈ targetsOf finds added) :
    Item.Seated doc' doc₁.position (f.inserted doc container blocks t.label) t.label := by
  have hfresh : ∀ {p : NodeId}, p ∈ doc.ids → ∀ id, doc'.fresh ≤ id →
      doc₁.position p < doc₁.position id := fun hp id hid =>
    (hfurnished.beneath hp ht).2 id (Nat.le_trans R.fresh hid)
  rcases mem_findsOf hs hf with ⟨x, hx, rfl⟩ | ⟨n, hn, rfl⟩
  · obtain ⟨-, block, hsource⟩ := isSource_of_mem_find hx t.label
    obtain ⟨p, ahead, behind, hkids, hp⟩ := hsource.exists_host layout
    refine ⟨Find.names_inserted .., ⟨p, ?_, hfresh hp, fun m hm => ?_⟩, fun m hm => ?_⟩
    · exact R.root_mem_kids (hfurnished.layout layout) (Target.insertions_pairwise hpairwise)
        (Target.mem_insertions.2 hmem) hsource ((hfurnished.kids hp).trans hkids)
    · rw [Find.math_inserted_sighting] at hm
      cases hm
    · rw [Find.math_inserted_sighting] at hm
      cases hm
  · subst hblocks
    obtain ⟨hout, p, hp⟩ := isElement_of_mem_mathAmong h hc hn
    obtain ⟨hn', hp'⟩ := mem_ids_of_mem_kids hp
    have hswap := Target.swap_of_mem hpairwise hmem
    have hkid : n.label ∈ doc₁.kids p := (hfurnished.kids hp').symm ▸ hp
    have hnew : ∀ u ∈ added, u.label ≠ n.label := fun u hu heq =>
      hfurnished.not_mem_ids hu (heq ▸ hn')
    refine ⟨Find.names_inserted .., ⟨p, ?_, hfresh hp', fun m hm => ?_⟩, fun m hm => ?_⟩
    · rw [R.kids p (hfurnished.mem_ids hp')]
      refine List.mem_flatMap.2 ⟨_, hkid, ?_⟩
      rw [(R.other _ (hfurnished.mem_ids hn') hout).1, hswap]
      exact List.mem_singleton_self _
    · rw [Find.math_inserted_element] at hm
      cases hm
      exact ranked_position hfurnished.wellFormed p _ hkid
    · rw [Find.math_inserted_element] at hm
      cases hm
      refine R.isLoose_of_swap hfurnished.wellFormed hkid hout (fun target htarget => ?_) ?_
      · obtain ⟨g, -, u, hu, -, rfl⟩ := exists_of_mem_targetsOf htarget
        rw [Find.target_root]
        exact hnew u hu
      · rw [hswap]
        exact hnew t ht

theorem forall₂_zipWith {α β γ : Type} {P : γ → NodeId → Prop} {item : α → β → γ}
    {target : α → β → Target} {root : β → NodeId} {l : List α} {m : List β}
    (hlen : m.length = l.length)
    (h : ∀ a ∈ l, ∀ b ∈ m, target a b ∈ List.zipWith target l m → P (item a b) (root b)) :
    List.Forall₂ P (List.zipWith item l m) (m.map root) := by
  induction l generalizing m with
  | nil =>
    obtain rfl := List.eq_nil_of_length_eq_zero hlen
    exact .nil
  | cons a l ih =>
    cases m with
    | nil => cases hlen
    | cons b m =>
      rw [List.zipWith_cons_cons, List.map_cons]
      refine .cons (h a (List.mem_cons_self ..) b (List.mem_cons_self ..)
        (List.mem_cons_self ..)) (ih (Nat.succ.inj hlen) fun a' ha b' hb hmem => ?_)
      exact h a' (List.mem_cons_of_mem _ ha) b' (List.mem_cons_of_mem _ hb)
        (List.mem_cons_of_mem _ hmem)

end

/-- After all stages a session is settled, if the blocks are laid out in the document. -/
theorem Session.Rendered.settled_of_layout {s s' : Session} (D : s.Rendered s')
    (h : s.document.WellFormed) (hlayout : Layout s.document D.blocks)
    (hs : Source.AreUsual s.sources) :
    s'.IsSettled D.furnished.position (D.added.map label) where
  wellFormed := D.rendering.wellFormed
  ranked := D.rendering.ranked
  seated := by
    have hc := (mem_of_find? D.body).1
    have hpieces := find_pairwise_precedes {} (nodup_below h.distinct hc)
    rw [← D.blocks_eq] at hpieces
    have hpairwise := targetsOf_pairwise hs hpieces D.survey D.added
    rw [D.items]
    refine @forall₂_zipWith _ _ _ _ _ (fun f t => f.target t.label) _ _ _ D.length
      fun f hf t ht hmem => ?_
    exact seated_of_find h hlayout hc D.blocks_eq hs D.furnishes D.rendering hpairwise
      (D.survey.perm.mem_iff.1 (List.mem_filter.1 hf).1) ht hmem
  distinct := D.furnishes.nodup_added
  elements := by
    rw [D.items]
    refine zipWith_pairwise (D.survey.sorted.filter _) (fun f _ g _ hlt t u m hf hg => ?_) D.added
    cases f with
    | sighting x => cases hf
    | element n display =>
      cases g with
      | sighting y => cases hg
      | element n' display' =>
        cases hf
        cases hg
        exact List.lt_irrefl _ hlt
  finished := D.finished
  progress := D.progress

/-- After all stages a session is settled. -/
theorem Session.Rendered.settled {s s' : Session} (D : s.Rendered s')
    (h : s.document.WellFormed) (hplain : s.document.IsPlain)
    (hs : Source.AreUsual s.sources) :
    s'.IsSettled D.furnished.position (D.added.map label) :=
  D.settled_of_layout h (D.blocks_eq ▸ layout_find h hplain (mem_of_find? D.body).1) hs

/-! ### To and fro -/

/-- However often the sources of a rendered session are restored and the session is updated again,
the document is the same after each update, and the tree is the same each time the sources are
back. -/
theorem render_alternate (doc : Document) (hdoc : doc.WellFormed) (hplain : doc.IsPlain)
    (sources : List Source) (hs : Source.AreUsual sources) :
    ∃ s tree, ({ document := doc, sources } : Session).render = .ok s ∧
      ∀ k, ∃ sₖ rₖ, s.alternate k = .ok sₖ ∧ sₖ.document.root = s.document.root ∧
        sₖ.items = s.items ∧
        sₖ.removeFromDocument true = .ok rₖ ∧ rₖ.document.root.fragment = tree := by
  have hfresh : Session.IsFresh { document := doc, sources } := ⟨hs, rfl, rfl, rfl, rfl, rfl⟩
  obtain ⟨s, hrender, ⟨D⟩⟩ := render_rendered hdoc hplain hfresh
  have hsettled := D.settled hdoc hplain hs
  obtain ⟨r, pairs, hremove, hfst, hrestored⟩ := hsettled.exists_restored
  refine ⟨s, r.document.root.fragment, hrender, fun k => ?_⟩
  obtain ⟨doc', halternate, hswapped, hrank⟩ := hsettled.exists_alternate k
  obtain ⟨r', pairs', hremove', hfst', hrestored'⟩ :=
    (hsettled.again hswapped hrank).exists_restored
  refine ⟨_, r', halternate, hswapped.root_eq hsettled.wellFormed, rfl, hremove', ?_⟩
  exact hrestored.fragment_eq hsettled hfst hswapped hrank hrestored' hfst'

/-- A paragraph with mathematics in TeX and as an element, which holds some TeX itself. -/
def Document.mixedFormulas : Document :=
  .ofFragments [.build "p" [] [.text "Let $x$ and ",
    .build "math" [] [.build "mi" [] [.text "y"], .build "mtext" [] [.text "or $z$"]], .text "."]]

theorem Document.isPlain_mixedFormulas : mixedFormulas.IsPlain := by
  rw [IsPlain]
  decide

theorem render_alternate_mixedFormulas :
    (mixedFormulas.WellFormed ∧ mixedFormulas.IsPlain ∧ Source.AreUsual [.tex, .mathml]) ∧
    ∃ s tree, ({ document := mixedFormulas, sources := [.tex, .mathml] } : Session).render = .ok s ∧
      ∀ k, ∃ sₖ rₖ, s.alternate k = .ok sₖ ∧ sₖ.document.root = s.document.root ∧
        sₖ.items = s.items ∧
        sₖ.removeFromDocument true = .ok rₖ ∧ rₖ.document.root.fragment = tree := by
  have hs : Source.AreUsual [.tex, .mathml] := .inr (.inr (.inl rfl))
  exact ⟨⟨wellFormed_ofFragments _, isPlain_mixedFormulas, hs⟩,
    render_alternate mixedFormulas (wellFormed_ofFragments _) isPlain_mixedFormulas _ hs⟩

end Formulary
