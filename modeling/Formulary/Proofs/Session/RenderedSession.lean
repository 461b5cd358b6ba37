import Formulary.Proofs.Session.TypesetForms

/-! # A whole session

The stages of a session succeed one after the other, and `Session.Rendered` says what they leave:
the items of the finds that can be read are in the document, in place of what was found
(`render_rendered`). -/

namespace Formulary

open Formulary.Tree Document

/-! ### From finds to targets -/

/-- What gives way to the typeset form `root` of a find. -/
def Find.target (f : Find) (root : NodeId) : Target :=
  match f with
  | sighting x => .stretch (x.insertion root)
  | element m _ => .element m root

@[simp] theorem Find.target_root (f : Find) (root : NodeId) : (f.target root).root = root := by
  cases f <;> rfl

/-- The item of a find that was read and typeset. -/
def Find.typeset (doc : Document) (container : Node) (blocks : List Block) (f : Find)
    (root : NodeId) : Item :=
  { f.compiled doc container blocks with content := some root, stage := .typeset }

/-- The item of a find whose typeset form is in the document. -/
def Find.inserted (doc : Document) (container : Node) (blocks : List Block) (f : Find)
    (root : NodeId) : Item :=
  (f.typeset doc container blocks root).inserted root

/-- What was found and can be read, with the typeset forms. -/
def targetsOf (finds : List Find) (added : List Node) : List Target :=
  List.zipWith (fun (f : Find) (t : Node) => f.target t.label) (finds.filter Find.isRead) added

section

variable {doc doc₁ : Document} {container : Node} {blocks : List Block} {sources : List Source}
  {finds : List Find} {added : List Node}

theorem mem_findsOf (hs : Source.AreUsual sources) {f : Find}
    (h : f ∈ findsOf sources container blocks) :
    (∃ x ∈ Delimiters.find {} (blocks.map Block.string), f = .sighting x) ∨
      ∃ n ∈ Source.mathAmong container.children, f = .element n.label (Source.isDisplay n) := by
  obtain ⟨source, hsource, hf⟩ := List.mem_flatMap.1 h
  rcases hs.eq_or hsource with rfl | rfl
  · exact .inl (mem_finds_tex.1 hf)
  · exact .inr (mem_finds_mathml.1 hf)

theorem isIn_of_mem_findsOf (h : doc.WellFormed) (hc : container ∈ doc.nodes)
    (hs : Source.AreUsual sources) {f : Find} (hf : f ∈ findsOf sources container blocks) :
    f.IsIn doc := by
  rcases mem_findsOf hs hf with ⟨x, -, rfl⟩ | ⟨n, hn, rfl⟩
  · trivial
  · have hbelow := (Source.mathAmong_sublist _).subset hn
    exact ⟨n, h.find?_label (mem_subtreesAll_of_below hbelow hc), Source.kind_of_mem_mathAmong hn⟩

/-- A find with a smaller key may come before one with a larger key. -/
theorem precedes_of_key_lt (hs : Source.AreUsual sources)
    (hpieces : blocks.flatten.Pairwise (Piece.Precedes container)) {f g : Find}
    (hf : f ∈ findsOf sources container blocks) (hg : g ∈ findsOf sources container blocks)
    (hlt : Find.key container blocks f < Find.key container blocks g) (r r' : NodeId) :
    (f.target r).Precedes (g.target r') := by
  rcases mem_findsOf hs hf with ⟨x, hx, rfl⟩ | ⟨n, hn, rfl⟩ <;>
    rcases mem_findsOf hs hg with ⟨y, hy, rfl⟩ | ⟨m, hm, rfl⟩
  · intro hj
    obtain ⟨i, hi, rfl⟩ := List.mem_iff_getElem.1 hx
    obtain ⟨k, hk, rfl⟩ := List.mem_iff_getElem.1 hy
    have hsorted := List.pairwise_map.1 (find_keySorted hpieces)
    have hik : i < k := by
      rcases Nat.lt_trichotomy i k with hik | rfl | hki
      · exact hik
      · exact absurd hlt (List.lt_irrefl _)
      · exact absurd (List.pairwise_iff_getElem.1 hsorted k i hk hi hki) (List.lt_asymm hlt)
    have hsee := List.pairwise_iff_getElem.1 (Delimiters.find_pairwise {} _) i k hi hk hik
    obtain ⟨⟨hxs, -, -⟩, -⟩ := isSource_of_mem_find hx r
    obtain ⟨⟨hys, -, -⟩, -⟩ := isSource_of_mem_find hy r'
    rcases hsee with hsee | ⟨-, hle⟩
    · rw [hxs, hys, hj] at hsee
      exact absurd hsee (Int.lt_irrefl _)
    · exact Int.toNat_le_toNat hle
  · trivial
  · trivial
  · rintro heq
    rcases Key.triple_lt.1 hlt with hidx | ⟨-, hidx⟩
    · have hidx : container.labels.idxOf n.label < container.labels.idxOf m.label :=
        Int.ofNat_lt.1 hidx
      rw [heq] at hidx
      exact Nat.lt_irrefl _ hidx
    · exact Int.lt_irrefl _ hidx

theorem zipWith_pairwise {α β γ : Type} {f : α → β → γ} {R : α → α → Prop} {S : γ → γ → Prop}
    {l : List α} (h : l.Pairwise R) (hS : ∀ a ∈ l, ∀ b ∈ l, R a b → ∀ c d, S (f a c) (f b d))
    (m : List β) : (List.zipWith f l m).Pairwise S := by
  induction l generalizing m with
  | nil => exact .nil
  | cons a rest ih =>
    cases m with
    | nil => exact .nil
    | cons c m =>
      obtain ⟨hhead, htail⟩ := List.pairwise_cons.1 h
      rw [List.zipWith_cons_cons]
      refine List.pairwise_cons.2 ⟨fun s hs => ?_, ih htail (fun a ha b hb => hS a
        (List.mem_cons_of_mem _ ha) b (List.mem_cons_of_mem _ hb)) m⟩
      obtain ⟨i, hi, rfl⟩ := List.mem_iff_getElem.1 hs
      rw [List.getElem_zipWith]
      have hi' : i < rest.length := by
        rw [List.length_zipWith] at hi
        omega
      have hb := List.getElem_mem hi'
      exact hS a (List.mem_cons_self ..) _ (List.mem_cons_of_mem _ hb) (hhead _ hb) _ _

theorem targetsOf_pairwise (hs : Source.AreUsual sources)
    (hpieces : blocks.flatten.Pairwise (Piece.Precedes container))
    (hsurvey : IsSurvey container blocks sources finds) (added : List Node) :
    (targetsOf finds added).Pairwise Target.Precedes := by
  have hmem : ∀ f ∈ finds.filter Find.isRead, f ∈ findsOf sources container blocks :=
    fun f hf => hsurvey.perm.mem_iff.1 (List.mem_filter.1 hf).1
  refine zipWith_pairwise (hsurvey.sorted.filter _) (fun f hf g hg hlt _ _ => ?_) added
  exact precedes_of_key_lt hs hpieces (hmem f hf) (hmem g hg) hlt _ _

theorem aims_of_find (h : doc.WellFormed) (layout : Layout doc blocks) (hc : container ∈ doc.nodes)
    (hblocks : blocks = ({} : Extraction).find container) (hs : Source.AreUsual sources)
    (hfurnished : doc.Furnished doc₁ added) {f : Find}
    (hf : f ∈ findsOf sources container blocks) {t : Node} (ht : t ∈ added) :
    Aims doc₁ blocks doc₁.position (f.typeset doc container blocks t.label)
      (f.target t.label) where
  stage := rfl
  content := by rw [Find.target_root]; rfl
  ends := by
    rcases mem_findsOf hs hf with ⟨x, hx, rfl⟩ | ⟨n, hn, rfl⟩
    · obtain ⟨⟨-, hstart, hstop⟩, block, hsource⟩ := isSource_of_mem_find hx t.label
      obtain ⟨p, ahead, behind, hkids, hp⟩ := hsource.exists_host layout
      have hget : blocks[x.string.toNat]? = some block := hsource.get
      refine ⟨rfl, block, p, ahead, behind, x.opener, x.closer, hsource, ?_, ?_, ?_,
        hfurnished.beneath hp ht⟩
      · rw [← hstart, Find.typeset, Find.compiled, Find.item, List.getD_eq_getElem?_getD, hget]
        rfl
      · rw [← hstop, Find.typeset, Find.compiled, Find.item, List.getD_eq_getElem?_getD, hget]
        rfl
      · rw [hfurnished.kids hp, hkids]
    · subst hblocks
      obtain ⟨hout, p, hp⟩ := isElement_of_mem_mathAmong h hc hn
      refine ⟨rfl, rfl, rfl, hout, p, ?_, ?_⟩
      · rw [hfurnished.kids (mem_ids_of_mem_kids hp).2]
        exact hp
      · exact hfurnished.beneath (mem_ids_of_mem_kids hp).2 ht

theorem forall₂_aims (h : doc.WellFormed) (layout : Layout doc blocks) (hc : container ∈ doc.nodes)
    (hblocks : blocks = ({} : Extraction).find container) (hs : Source.AreUsual sources)
    (hfurnished : doc.Furnished doc₁ added) {kept : List Find} {roots : List Node}
    (hkept : ∀ f ∈ kept, f ∈ findsOf sources container blocks) (hroots : ∀ t ∈ roots, t ∈ added) :
    List.Forall₂ (Aims doc₁ blocks doc₁.position)
      (List.zipWith (fun (f : Find) (t : Node) => f.typeset doc container blocks t.label) kept roots)
      (List.zipWith (fun (f : Find) (t : Node) => f.target t.label) kept roots) := by
  induction kept generalizing roots with
  | nil => exact .nil
  | cons f rest ih =>
    cases roots with
    | nil => exact .nil
    | cons t roots =>
      exact .cons (aims_of_find h layout hc hblocks hs hfurnished
        (hkept f (List.mem_cons_self ..)) (hroots t (List.mem_cons_self ..)))
        (ih (fun g hg => hkept g (List.mem_cons_of_mem _ hg))
          fun u hu => hroots u (List.mem_cons_of_mem _ hu))

end

/-! ### All stages -/

/-- What a session `s` that begins anew has become after all stages. -/
structure Session.Rendered (s s' : Session) where
  container : Node
  blocks : List Block
  finds : List Find
  /-- The typeset forms of the finds that can be read. -/
  added : List Node
  /-- The document with the typeset forms beside it. -/
  furnished : Document
  replaced : List Replacement
  shown : NodeId → List NodeId
  body : s.document.find? s.document.body = some container
  blocks_eq : blocks = ({} : Extraction).find container
  survey : IsSurvey container blocks s.sources finds
  length : added.length = (finds.filter Find.isRead).length
  furnishes : s.document.Furnished furnished added
  rendering : Rendering furnished blocks furnished.position
    (Target.insertions (targetsOf finds added)) (Target.swap (targetsOf finds added)) s'.document
    replaced shown
  items : s'.items = List.zipWith (fun (f : Find) (t : Node) =>
    f.inserted s.document container blocks t.label) (finds.filter Find.isRead) added
  errors : s'.errors = itemsFailed container blocks finds
  sources : s'.sources = s.sources
  containers : s'.containers = none
  extraction : s'.extraction = {}
  finished : s'.finished = [.discover, .compile, .typeset, .update]
  progress : s'.progress = .rendered
  forms : ∀ item ∈ s'.items, item.IsShownBy added

theorem zipWith_target_root (kept : List Find) {roots : List Node}
    (h : roots.length = kept.length) :
    (List.zipWith (fun (f : Find) (t : Node) => f.target t.label) kept roots).map Target.root =
      roots.map label := by
  induction kept generalizing roots with
  | nil =>
    obtain rfl := List.eq_nil_of_length_eq_zero h
    rfl
  | cons f rest ih =>
    cases roots with
    | nil => rfl
    | cons t roots =>
      rw [List.zipWith_cons_cons, List.map_cons, List.map_cons, ih (Nat.succ.inj h),
        Find.target_root]

theorem exists_of_mem_targetsOf {finds : List Find} {added : List Node} {target : Target}
    (h : target ∈ targetsOf finds added) :
    ∃ f ∈ finds, ∃ t ∈ added, f.isRead = true ∧ target = f.target t.label := by
  obtain ⟨i, hi, rfl⟩ := List.mem_iff_getElem.1 h
  simp only [targetsOf, List.length_zipWith] at hi
  have hmem := List.mem_filter.1 (List.getElem_mem (show i < (finds.filter Find.isRead).length by omega))
  refine ⟨_, hmem.1, _, List.getElem_mem (show i < added.length by omega), hmem.2, ?_⟩
  simp only [targetsOf, List.getElem_zipWith]

theorem zipWith_inserted (doc : Document) (container : Node) (blocks : List Block)
    (kept : List Find) (roots : List Node) :
    List.zipWith (fun (item : Item) (target : Target) => item.inserted target.root)
        (List.zipWith (fun (f : Find) (t : Node) => f.typeset doc container blocks t.label) kept
          roots)
        (List.zipWith (fun (f : Find) (t : Node) => f.target t.label) kept roots) =
      List.zipWith (fun (f : Find) (t : Node) => f.inserted doc container blocks t.label) kept
        roots := by
  induction kept generalizing roots with
  | nil => rfl
  | cons f rest ih =>
    cases roots with
    | nil => rfl
    | cons t roots =>
      simp only [List.zipWith_cons_cons, ih, Find.target_root]
      rfl

/-- The typeset form of an item shows it once it is in the document. -/
theorem forall_zipWith_inserted {doc : Document} {container : Node} {blocks : List Block}
    {kept : List Find} {roots added : List Node}
    (h : ∀ item ∈ List.zipWith (fun (f : Find) (t : Node) =>
      f.typeset doc container blocks t.label) kept roots, item.IsShownBy added) :
    ∀ item ∈ List.zipWith (fun (f : Find) (t : Node) =>
      f.inserted doc container blocks t.label) kept roots, item.IsShownBy added := by
  intro item hitem
  obtain ⟨i, hi, rfl⟩ := List.mem_iff_getElem.1 hitem
  have hi' := hi
  rw [List.length_zipWith, ← @List.length_zipWith _ _ _ fun (f : Find) (t : Node) =>
    f.typeset doc container blocks t.label] at hi'
  have hshown := h _ (List.getElem_mem hi')
  rw [List.getElem_zipWith] at hshown ⊢
  exact hshown

theorem typeset_eq {s : Session} (h : .typeset ∉ s.finished) {doc : Document} {items : List Item}
    (hall : Session.typesetAll s.document s.items = .ok (doc, items)) :
    s.typeset = .ok ({ s with document := doc, items }.finish .typeset .typeset) := by
  rw [Session.typeset, if_neg h, hall]
  rfl

theorem render_eq {s s₁ s₂ s₃ s₄ : Session} (h₁ : s.discover none = .ok s₁)
    (h₂ : s₁.compile = .ok s₂) (h₃ : s₂.typeset = .ok s₃) (h₄ : s₃.update = .ok s₄) :
    s.render = .ok s₄ := by
  simp only [Session.render, h₁, h₂, h₃, h₄, bind, Except.bind]

/-! ### One stage after the other -/

namespace Session

variable {s : Session}

/-! A phase that is done is not done again. -/

theorem discover_of_mem {containers : Option (List NodeId)} (h : .discover ∈ s.finished) :
    s.discover containers = .ok s := if_pos h

theorem compile_of_mem (h : .compile ∈ s.finished) : s.compile = .ok s := if_pos h

theorem typeset_of_mem (h : .typeset ∈ s.finished) : s.typeset = .ok s := if_pos h

theorem update_of_mem (h : .update ∈ s.finished) : s.update = .ok s := if_pos h

end Session

/-- What there is to find in a document for some sources. -/
structure Findings (doc : Document) (sources : List Source) where
  container : Node
  blocks : List Block
  finds : List Find
  body : doc.find? doc.body = some container
  blocks_eq : blocks = ({} : Extraction).find container
  survey : IsSurvey container blocks sources finds

/-- The session searches for some sources, in the usual way and where it always does. -/
structure Session.Seeks (s : Session) (sources : List Source) : Prop where
  sought : s.sources = sources
  containers : s.containers = none
  extraction : s.extraction = {}

namespace Findings

variable {doc : Document} {sources : List Source} (F : Findings doc sources) {s : Session}
  {added : List Node}

theorem mem_nodes : F.container ∈ doc.nodes := (mem_of_find? F.body).1

theorem mem_findsOf {f : Find} (hf : f ∈ F.finds) : f ∈ findsOf sources F.container F.blocks :=
  F.survey.perm.mem_iff.1 hf

theorem isIn (h : doc.WellFormed) (hs : Source.AreUsual sources) {f : Find} (hf : f ∈ F.finds) :
    f.IsIn doc :=
  isIn_of_mem_findsOf h F.mem_nodes hs (F.mem_findsOf hf)

/-- The items of what can be read, with their typeset forms. -/
def typeset (added : List Node) : List Item :=
  List.zipWith (fun (f : Find) (t : Node) => f.typeset doc F.container F.blocks t.label)
    (F.finds.filter Find.isRead) added

/-- The session has found what there is. -/
structure IsFound (s : Session) : Prop extends s.Seeks sources where
  document : s.document = doc
  items : s.items = F.finds.map (Find.item F.container F.blocks)
  errors : s.errors = []

/-- The session has read what there is. -/
structure IsRead (s : Session) : Prop extends s.Seeks sources where
  document : s.document = doc
  items : s.items = itemsRead doc F.container F.blocks F.finds
  errors : s.errors = itemsFailed F.container F.blocks F.finds

/-- The session has the typeset forms `added` of what can be read beside the document. -/
structure IsTypeset (added : List Node) (s : Session) : Prop extends s.Seeks sources where
  furnished : doc.Furnished s.document added
  length : added.length = (F.finds.filter Find.isRead).length
  items : s.items = F.typeset added
  errors : s.errors = itemsFailed F.container F.blocks F.finds
  forms : ∀ item ∈ s.items, item.IsShownBy added

theorem exists_discover (hseeks : s.Seeks sources) (h : s.document.WellFormed)
    (hs : Source.AreUsual sources) (hitems : s.items = []) (herrors : s.errors = [])
    (hunfinished : .discover ∉ s.finished) :
    ∃ s', ∃ F : Findings s.document sources, s.discover none = .ok s' ∧ F.IsFound s' ∧
      s'.finished = s.finished ++ [.discover] := by
  obtain ⟨container, hbody⟩ := exists_body s.document
  obtain ⟨finds, hsurvey, hdiscover⟩ := discover_finds h (hseeks.sought ▸ hs) hseeks.containers
    hseeks.extraction hitems hunfinished hbody
  exact ⟨_, ⟨container, _, finds, hbody, rfl, hseeks.sought ▸ hsurvey⟩, hdiscover,
    ⟨⟨hseeks.sought, hseeks.containers, hseeks.extraction⟩, rfl, rfl, herrors⟩, rfl⟩

variable {F}

theorem IsFound.exists_compile (hfound : F.IsFound s) (h : doc.WellFormed)
    (hs : Source.AreUsual sources) (hunfinished : .compile ∉ s.finished) :
    ∃ s', s.compile = .ok s' ∧ F.IsRead s' ∧ s'.finished = s.finished ++ [.compile] := by
  obtain ⟨hseeks, rfl, hitems, herrors⟩ := hfound
  obtain ⟨reports, hcompile⟩ := compile_finds (fun _ hf => F.isIn h hs hf) hitems hunfinished
  refine ⟨_, hcompile, ⟨⟨hseeks.sought, hseeks.containers, hseeks.extraction⟩, rfl, rfl, ?_⟩, rfl⟩
  show s.errors ++ _ = _
  rw [herrors, List.nil_append]

theorem IsRead.exists_typeset (hread : F.IsRead s) (h : doc.WellFormed)
    (hs : Source.AreUsual sources) (hunfinished : .typeset ∉ s.finished) :
    ∃ s' added, s.typeset = .ok s' ∧ F.IsTypeset added s' ∧
      s'.finished = s.finished ++ [.typeset] := by
  obtain ⟨hseeks, rfl, hitems, herrors⟩ := hread
  have hmath : ∀ item ∈ s.items, item.stage = .compiled ∧
      ∃ root, item.root = some root ∧ root.kind = .text "math" := fun item hitem => by
    rw [hitems] at hitem
    obtain ⟨f, hf, rfl⟩ := List.mem_map.1 hitem
    obtain ⟨hf, hisRead⟩ := List.mem_filter.1 hf
    exact ⟨rfl, (@Find.compile_of_isRead _ F.container F.blocks _ hisRead (F.isIn h hs hf)).2⟩
  obtain ⟨doc', added, htypeset, hlen, hfurnished, hforms⟩ := typesetAll_furnished h hmath
  have hzip : List.zipWith (fun (item : Item) (t : Node) =>
      { item with content := some t.label, stage := .typeset }) s.items added =
        F.typeset added := by
    rw [hitems, itemsRead, List.zipWith_map_left]
    rfl
  rw [hitems, itemsRead, List.length_map] at hlen
  rw [hzip] at htypeset hforms
  exact ⟨_, added, typeset_eq hunfinished htypeset, ⟨⟨hseeks.sought, hseeks.containers,
    hseeks.extraction⟩, hfurnished, hlen, rfl, herrors, hforms⟩, rfl⟩

end Findings

theorem Findings.IsTypeset.exists_update {s₀ s : Session} {F : Findings s₀.document s₀.sources}
    {added : List Node} (htypeset : F.IsTypeset added s) (h : s₀.document.WellFormed)
    (hlayout : Layout s₀.document F.blocks) (hs : Source.AreUsual s₀.sources)
    (hfinished : s.finished = [.discover, .compile, .typeset]) :
    ∃ s', s.update = .ok s' ∧ Nonempty (s₀.Rendered s') := by
  have hitems := htypeset.items
  have hfurnished := htypeset.furnished
  have haims : List.Forall₂ (Aims s.document F.blocks s.document.position) s.items
      (targetsOf F.finds added) := hitems ▸ forall₂_aims h hlayout F.mem_nodes F.blocks_eq hs
    hfurnished (fun f hf => F.mem_findsOf (List.mem_filter.1 hf).1) fun t ht => ht
  have hpieces : F.blocks.flatten.Pairwise (Piece.Precedes F.container) :=
    F.blocks_eq ▸ find_pairwise_precedes {} (nodup_below h.distinct F.mem_nodes)
  have hroots : ((targetsOf F.finds added).map Target.root).Nodup := by
    rw [targetsOf, zipWith_target_root _ htypeset.length]
    exact hfurnished.nodup_added
  obtain ⟨doc', replaced, shown, hupdate, R⟩ := update_rendering (by simp [hfinished])
    hfurnished.wellFormed (hfurnished.layout hlayout) (ranked_position hfurnished.wellFormed) haims
    (targetsOf_pairwise hs hpieces F.survey added) hroots fun target htarget => by
      obtain ⟨f, -, t, ht, -, rfl⟩ := exists_of_mem_targetsOf htarget
      rw [Find.target_root]
      exact ⟨hfurnished.isLoose ht, hfurnished.text?_eq_none ht⟩
  have hinserted : List.zipWith (fun (item : Item) (t : Target) => item.inserted t.root) s.items
      (targetsOf F.finds added) = List.zipWith (fun (f : Find) (t : Node) =>
        f.inserted s₀.document F.container F.blocks t.label) (F.finds.filter Find.isRead) added := by
    rw [hitems]
    exact zipWith_inserted ..
  rw [hinserted] at hupdate
  exact ⟨_, hupdate, ⟨{
    container := F.container
    blocks := F.blocks
    finds := F.finds
    added
    furnished := s.document
    replaced, shown
    body := F.body
    blocks_eq := F.blocks_eq
    survey := F.survey
    length := htypeset.length
    furnishes := hfurnished
    rendering := R
    items := rfl
    errors := htypeset.errors
    sources := htypeset.sought
    containers := htypeset.containers
    extraction := htypeset.extraction
    finished := congrArg (· ++ [Phase.update]) hfinished
    progress := rfl
    forms := forall_zipWith_inserted fun item hitem => htypeset.forms item (hitems ▸ hitem) }⟩⟩

/-- All stages of a session succeed. -/
theorem render_rendered {s : Session} (h : s.document.WellFormed) (hplain : s.document.IsPlain)
    (hfresh : s.IsFresh) : ∃ s', s.render = .ok s' ∧ Nonempty (s.Rendered s') := by
  have hs := hfresh.usual
  obtain ⟨s₁, F, hdiscover, hfound, hfinished₁⟩ := Findings.exists_discover
    ⟨rfl, hfresh.containers, hfresh.extraction⟩ h hs hfresh.items hfresh.errors
    (by simp [hfresh.finished])
  rw [hfresh.finished] at hfinished₁
  obtain ⟨s₂, hcompile, hread, hfinished₂⟩ := hfound.exists_compile h hs (by simp [hfinished₁])
  rw [hfinished₁] at hfinished₂
  obtain ⟨s₃, added, htypeset, hset, hfinished₃⟩ := hread.exists_typeset h hs (by simp [hfinished₂])
  rw [hfinished₂] at hfinished₃
  obtain ⟨s₄, hupdate, hrendered⟩ := hset.exists_update h
    (F.blocks_eq ▸ layout_find h hplain F.mem_nodes) hs hfinished₃
  exact ⟨s₄, render_eq hdiscover hcompile htypeset hupdate, hrendered⟩

end Formulary
