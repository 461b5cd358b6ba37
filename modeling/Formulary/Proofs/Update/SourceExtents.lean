import Formulary.Proofs.Discovery.PositionKeys
import Formulary.Proofs.Discovery.TypesetMarks
import Formulary.Proofs.Update.Locations

/-! # Where sources begin

What is found in a block is a stretch of its text (`Extent`).  It lies in neighbouring children of
one place (`Extent.Seat`), and from these an item for it can be put in
(`Extent.Spans.exists_placement`).

The search for the place in which a source begins stops at running text, or at the place in which
the source ends.  So it may pass over the place of the first character, but only if that is no
running text (`Extent.Seat.front_cases`). -/

namespace Formulary

open Formulary.Tree Document

/-! ### The first character of a source -/

/-- The place that holds the character at an offset of the text that some neighbours make up, and
its offset there. -/
def Extraction.characterAt (o : Extraction) (offset : Int) : List Node → Option (NodeId × Nat)
  | [] => none
  | node :: rest =>
    match o.piece? node with
    | none => none
    | some piece =>
      if offset < piece.text.length then some (node.label, offset.toNat)
      else o.characterAt (offset - piece.text.length) rest

/-- The place that holds the first character of the source of an item, and its offset there: the
place of the first location, or one after it if the text of that ends at the location. -/
def Item.firstCharacter (doc : Document) (o : Extraction) (item : Item) :
    Option (NodeId × Nat) := do
  let id ← item.start.node
  let node ← doc.find? id
  o.characterAt item.start.offset (node :: doc.followers id)

namespace Extraction

variable {o : Extraction}

theorem characterAt_eq {ns ms : List Node} {n : Node} {block : Block} {piece : Piece}
    (hns : ns.map o.piece? = block.map some) (hn : o.piece? n = some piece) {offset : Nat}
    (hle : block.chars.length ≤ offset)
    (hlt : offset < block.chars.length + piece.text.toList.length) :
    o.characterAt offset (ns ++ n :: ms) = some (n.label, offset - block.chars.length) := by
  induction ns generalizing block offset with
  | nil =>
    obtain rfl := List.map_eq_nil_iff.1 hns.symm
    have hlen : piece.text.length = piece.text.toList.length := rfl
    rw [Block.chars_nil, List.length_nil] at hlt
    rw [List.nil_append, characterAt, hn]
    simp only [Block.chars_nil, List.length_nil, Nat.sub_zero]
    rw [if_pos (by omega), Int.toNat_natCast]
  | cons m ns ih =>
    cases block with
    | nil => cases hns
    | cons first block =>
      obtain ⟨hfirst, hrest⟩ := List.cons.inj hns
      have hlen : first.text.length = first.text.toList.length := rfl
      rw [Block.chars_cons, List.length_append] at hle hlt ⊢
      rw [List.cons_append, characterAt, hfirst]
      simp only
      rw [if_neg (by omega), hlen, ← Int.ofNat_sub (by omega), ih hrest (by omega) (by omega)]
      congr 2
      omega

theorem textOf_of_text? {doc : Document} {n : Node} {s : String} (hn : doc.find? n.label = some n)
    (hs : doc.text? n.label = some s) : o.textOf n = s := by
  rw [Option.some.inj (hn.symm.trans (find?_of_text? hs))]
  rfl

theorem not_mem_subtrees_of_isPart {doc : Document} (h : doc.WellFormed) {container n parent : Node}
    (hc : container ∈ doc.nodes) (hn : n ∈ subtreesAll container.children) (hpart : o.IsPart n)
    {path : List Node} (hpath : Descends container path parent) (hreach : o.Reaches path) :
    parent ∉ n.subtrees := by
  have hnot : ∀ m ∈ path, m ≠ n := by
    rintro m hm rfl
    have hopens := hreach m hm
    rcases hpart with htext | hincluded
    · rw [hopens.notText] at htext
      cases htext
    · rw [hopens.notIncluded] at hincluded
      cases hincluded
  intro hmem
  cases hpath with
  | here =>
    have hnodup := nodup_below h.distinct hc
    rw [labels, subtrees_eq, List.map_cons, List.nodup_cons] at hnodup
    refine hnodup.1 (List.mem_map_of_mem (subtreesAll_trans hmem hn))
  | @child path middle _ hpath hchild =>
    rw [subtrees_eq, List.mem_cons] at hmem
    rcases hmem with rfl | hmem
    · exact hnot parent (List.mem_cons_self ..) rfl
    · exact hnot n (List.mem_cons_of_mem _ (hpath.mem_of_below h hc hchild hn hmem)) rfl

end Extraction

theorem Document.followers_of_children {doc : Document} (h : doc.WellFormed) {p n : Node}
    (hp : p ∈ doc.nodes) {before after : List Node} (hp' : p.children = before ++ n :: after) :
    doc.find? n.label = some n ∧ doc.followers n.label = after := by
  have hchild : ∀ m ∈ n :: after, doc.find? m.label = some m := fun m hm =>
    h.find?_label (mem_subtreesAll_children (hp' ▸ List.mem_append_right _ hm) hp)
  have hkids : doc.kids p.label = before.map label ++ n.label :: after.map label := by
    rw [h.kids_label hp, hp', List.map_append, List.map_cons]
  obtain ⟨m, -, hlabels, hfind⟩ := followers_eq h hkids
  have hsame : ∀ l : List Node, (∀ m ∈ l, doc.find? m.label = some m) →
      (l.map label).map doc.find? = l.map some := fun l hl => by
    rw [List.map_map]
    exact List.map_congr_left hl
  have heq := congrArg (List.map doc.find?) hlabels
  rw [hsame _ hfind, ← List.map_cons, hsame _ hchild] at heq
  have hlist := (List.map_inj_right fun _ _ => Option.some.inj).1 heq
  exact ⟨hchild n (List.mem_cons_self ..), (List.cons.inj hlist).2⟩

theorem Item.IsSkipped.isSilent {doc : Document} {offset : Int} {skip rest : List NodeId}
    {c : NodeId} (h : IsSkipped doc offset (skip ++ c :: rest)) :
    IsSilent doc (offsetAfter skip offset) c := by
  cases skip with
  | nil => exact h.first c rfl
  | cons d skip =>
    rw [offsetAfter, if_neg (by simp)]
    exact h.others c (by simp)

/-! ### Extents -/

/-- A stretch of a block of a container. -/
structure Extent where
  container : Node
  /-- The index of the block. -/
  string : Nat
  block : Block
  start : Nat
  stop : Nat

/-- The pieces that some places are in the text around them. -/
def Extraction.pieces (o : Extraction) (nodes : List Node) : Block :=
  nodes.map fun n => ⟨n.label, o.textOf n⟩

theorem Extraction.pieces_append (o : Extraction) (ns ms : List Node) :
    o.pieces (ns ++ ms) = o.pieces ns ++ o.pieces ms := List.map_append

namespace Extent

variable {doc doc₀ : Document} {o : Extraction} {e : Extent} {item : Item}

/-- The source of an item has the extent `e`. -/
structure Spans (doc : Document) (o : Extraction) (e : Extent) (item : Item) : Prop where
  container : e.container ∈ doc.nodes
  get : (o.find e.container)[e.string]? = some e.block
  lt : e.start < e.stop
  le : e.stop ≤ e.block.chars.length
  begins : ∃ d, item.start = locate e.block.runs e.start d
  ends : ∃ d, item.stop = locate e.block.runs e.stop d

/-- Where an extent lies: in the children of a place from `first`, which holds the first character,
to `last`.  It is sought from the first one of `skip` on. -/
structure Seat (o : Extraction) (e : Extent) (item : Item) where
  path : List Node
  parent : Node
  ahead : List Node
  skip : List Node
  init : List Node
  behind : List Node
  first : Node
  last : Node
  before : Block
  after : Block
  descends : Descends e.container path parent
  reaches : o.Reaches path
  children : parent.children = ahead ++ (skip ++ (init ++ last :: behind))
  parts : ∀ n ∈ skip ++ (init ++ [last]), o.IsPart n
  block : e.block = before ++ o.pieces (skip ++ (init ++ [last])) ++ after
  head : (init ++ [last]).head? = some first
  begins : ∃ y d, (skip ++ [first]).head? = some y ∧
    item.start = ⟨some y.label, e.start - (before.chars.length : Int), d⟩
  ends : ∃ d, item.stop =
    ⟨some last.label, e.stop - ((before ++ o.pieces (skip ++ init)).chars.length : Int), d⟩
  skipped : skip ≠ [] → (before ++ o.pieces skip).chars.length = e.start
  empty : ∀ n ∈ skip.tail, (o.textOf n).toList = []
  start_le : (before ++ o.pieces skip).chars.length ≤ e.start
  start_lt : e.start < (before ++ o.pieces skip).chars.length + (o.textOf first).toList.length
  lt_stop : (before ++ o.pieces (skip ++ init)).chars.length < e.stop
  stop_le : e.stop ≤
    (before ++ o.pieces (skip ++ init)).chars.length + (o.textOf last).toList.length

theorem Spans.exists_seat (h : e.Spans doc o item) : Nonempty (e.Seat o item) := by
  obtain ⟨⟨path, parent, hpath, hreach, -, ahead, nodes, behind, hchildren, -, hparts, -, -, hblock,
    -⟩, -⟩ := ((o.find_stretches e.container).1 e.block).1 (List.mem_of_getElem? h.get)
  obtain ⟨before, skip, core, after, hspan⟩ := Block.exists_span h.lt h.le
  obtain ⟨initPieces, w, rfl, hinit, hw, hstop⟩ := hspan.last
  -- the pieces of the span are those of neighbouring places
  have hnodes := hblock.symm.trans hspan.eq
  simp only [List.append_assoc, List.singleton_append] at hnodes
  obtain ⟨ns₀, rest₀, rfl, rfl, hrest₀⟩ := List.map_eq_append_iff.1 hnodes
  obtain ⟨ns, rest, rfl, rfl, hrest⟩ := List.map_eq_append_iff.1 hrest₀
  obtain ⟨init, rest₁, rfl, rfl, hrest₁⟩ := List.map_eq_append_iff.1 hrest
  obtain ⟨last, ns₁, rfl, rfl, rfl⟩ := List.map_eq_cons_iff.1 hrest₁
  change Block.Span e.block e.start e.stop (o.pieces ns₀) (o.pieces ns)
    (o.pieces init ++ o.pieces [last]) (o.pieces ns₁) at hspan
  rw [← o.pieces_append] at hspan
  obtain ⟨z, hz, hzle, hzlt⟩ : ∃ z, (init ++ [last]).head? = some z ∧
      (o.pieces ns₀ ++ o.pieces ns).chars.length ≤ e.start ∧
      e.start < (o.pieces ns₀ ++ o.pieces ns).chars.length + (o.textOf z).toList.length := by
    obtain ⟨z, more, hcore, hle, hlt⟩ := hspan.first
    have hhead := congrArg List.head? hcore
    rw [Extraction.pieces, List.head?_map, List.head?_cons] at hhead
    obtain ⟨z, hz, rfl⟩ := Option.map_eq_some_iff.1 hhead
    exact ⟨z, hz, hle, hlt⟩
  refine ⟨⟨path, parent, ahead ++ ns₀, ns, init, ns₁ ++ behind, z, last, o.pieces ns₀, o.pieces ns₁,
    hpath, hreach, by simp [hchildren], fun n hn => hparts n (by simp at hn ⊢; tauto), ?_, hz, ?_,
    ?_, fun hne => ?_, fun n hn => ?_, hzle, hzlt, ?_, ?_⟩⟩
  · rw [hspan.eq, o.pieces_append ns, List.append_assoc (o.pieces ns₀)]
  · obtain ⟨y, hy, hlocate⟩ := hspan.begins
    rw [← o.pieces_append, Extraction.pieces, List.head?_map] at hy
    obtain ⟨n, hn, rfl⟩ := Option.map_eq_some_iff.1 hy
    obtain ⟨d, hd⟩ := h.begins
    refine ⟨n, d, ?_, hd.trans (hlocate d)⟩
    rw [List.head?_append, hz] at hn
    rw [List.head?_append]
    exact hn
  · rw [o.pieces_append, ← List.append_assoc]
    obtain ⟨d, hd⟩ := h.ends
    exact ⟨d, hd.trans (hstop d)⟩
  · exact hspan.skipped fun hnil => hne (List.map_eq_nil_iff.1 hnil)
  · refine hspan.empty ⟨n.label, o.textOf n⟩ ?_
    rw [Extraction.pieces, ← List.map_tail]
    exact List.mem_map_of_mem hn
  · rw [o.pieces_append, ← List.append_assoc]
    exact hinit
  · rw [o.pieces_append, ← List.append_assoc]
    exact hw

namespace Seat

variable (E : e.Seat o item)

/-- How much of the last place the extent takes up. -/
def reach : Nat := e.stop - (E.before ++ o.pieces (E.skip ++ E.init)).chars.length

/-- The place of the first character, and the offset of the character there. -/
def front : NodeId × Nat :=
  (E.first.label, e.start - (E.before ++ o.pieces E.skip).chars.length)

theorem parent_mem (hc : e.container ∈ doc.nodes) : E.parent ∈ doc.nodes :=
  E.descends.mem_nodes hc

theorem kids (hdoc : doc.WellFormed) (hc : e.container ∈ doc.nodes) :
    doc.kids E.parent.label = E.ahead.map label ++ ((E.skip ++ E.init).map label ++
      E.last.label :: E.behind.map label) := by
  rw [hdoc.kids_label (E.parent_mem hc), E.children]
  simp

theorem find? (hdoc : doc.WellFormed) (hc : e.container ∈ doc.nodes) {n : Node}
    (hn : n ∈ E.skip ++ (E.init ++ [E.last])) : doc.find? n.label = some n := by
  refine hdoc.find?_label (mem_subtreesAll_children ?_ (E.parent_mem hc))
  rw [E.children]
  simp only [List.mem_append, List.mem_cons] at hn ⊢
  tauto

theorem exists_stretch (hdoc : doc.WellFormed) (hc : e.container ∈ doc.nodes)
    (hlt : e.start < e.stop) :
    ∃ S : item.Stretch doc, S.host = E.parent.label ∧
      S.skip ++ S.init = (E.skip ++ E.init).map label ∧ S.last = E.last ∧ S.reach = E.reach := by
  obtain ⟨y, _, hy, hbegins⟩ := E.begins
  obtain ⟨_, hends⟩ := E.ends
  have hstop := E.lt_stop
  have hreach : item.stop.offset = (E.reach : Int) := by
    rw [hends, reach]
    simp only
    omega
  have hstart : item.start.node =
      ((E.skip ++ E.init).map label ++ [E.last.label]).head? := by
    have hhead : (E.skip ++ (E.init ++ [E.last])).head? = some y := by
      rw [List.head?_append, E.head]
      simpa using hy
    rw [hbegins, List.map_append, List.append_assoc, ← List.map_singleton (f := label),
      ← List.map_append, ← List.map_append, List.head?_map, hhead]
    rfl
  have hpos : E.before.chars.length ≤ e.start := by
    have := E.start_le
    rw [Block.chars_append, List.length_append] at this
    omega
  have hle : (E.skip ++ E.init).map label = [] → item.start.offset ≤ E.reach := by
    intro hnil
    have hreach' : E.reach = e.stop - E.before.chars.length := by
      rw [reach, List.map_eq_nil_iff.1 hnil, Extraction.pieces, List.map_nil, List.append_nil]
    rw [hbegins, hreach']
    simp only
    omega
  obtain ⟨S, hhost, -, hplaces, hlast⟩ := Item.exists_stretch_of_siblings (E.kids hdoc hc)
    (E.find? hdoc hc (by simp)) hstart (by rw [hbegins]; simp only; omega) (by rw [hends]) hreach
    hle
  refine ⟨S, hhost, hplaces, hlast, ?_⟩
  have := S.stopOffset
  omega

theorem offsetAfter_eq : Item.offsetAfter (E.skip.map label) item.start.offset = E.front.2 := by
  obtain ⟨y, _, -, hbegins⟩ := E.begins
  have hle := E.start_le
  rw [Item.offsetAfter, front]
  by_cases hnil : E.skip = []
  · rw [hnil, Extraction.pieces, List.map_nil, List.append_nil] at hle
    rw [hnil, if_pos List.map_nil, hbegins, Extraction.pieces, List.map_nil, List.append_nil]
    simp only
    omega
  · rw [if_neg (mt List.map_eq_nil_iff.1 hnil), E.skipped hnil, Nat.sub_self]
    rfl

/-- The text of a place that the search passes over does not go on beyond the offset. -/
theorem length_le {ns ms : List Node} {n : Node} (hskip : E.skip = ns ++ n :: ms) :
    ((o.textOf n).toList.length : Int) ≤ Item.offsetAfter (ns.map label) item.start.offset := by
  cases ns with
  | nil =>
    obtain ⟨y, _, -, hbegins⟩ := E.begins
    have hle := E.start_le
    rw [hskip] at hle
    simp only [Extraction.pieces, List.nil_append, List.map_cons, Block.chars_append,
      Block.chars_cons, List.length_append] at hle
    rw [List.map_nil, Item.offsetAfter, if_pos rfl, hbegins]
    simp only
    omega
  | cons m ns =>
    rw [E.empty n (by simp [hskip]), Item.offsetAfter, if_neg (by simp)]
    exact Int.le_refl _

/-- Running text that goes on beyond the offset is not passed over. -/
theorem skip_ne_append (hdoc : doc.WellFormed) (hc : e.container ∈ doc.nodes) {S : item.Stretch doc}
    {c : NodeId} {t init : List NodeId} (hinit : S.init = c :: init) :
    E.skip.map label ≠ S.skip ++ c :: t := by
  intro hskip
  obtain ⟨ns, rest, hsplit, hns, hrest⟩ := List.map_eq_append_iff.1 hskip
  obtain ⟨n, ms, rfl, rfl, -⟩ := List.map_eq_cons_iff.1 hrest
  obtain ⟨htext, hlt⟩ := S.across (by simp [hinit])
  have hfirst : S.first = n := by
    have hfind := S.findFirst
    rw [S.label_first hinit, E.find? hdoc hc (by simp [hsplit])] at hfind
    exact (Option.some.inj hfind).symm
  have hle := E.length_le hsplit
  rw [hns, S.startOffset, Extraction.textOf, if_pos (hfirst ▸ htext), ← hfirst] at hle
  omega

/-- What is passed over, although the first character is there, is no running text. -/
theorem text?_first_of_skip (hdoc : doc.WellFormed) (hc : e.container ∈ doc.nodes)
    {S : item.Stretch doc} {t : List NodeId}
    (hskip : S.skip = E.skip.map label ++ E.first.label :: t) :
    doc.text? E.first.label = none := by
  by_contra hsome
  obtain ⟨s, hs⟩ := Option.ne_none_iff_exists'.1 hsome
  have hn := E.find? hdoc hc (n := E.first)
    (List.mem_append_right _ (List.mem_of_mem_head? E.head))
  have htext : E.first.isText = true := by
    rw [Option.some.inj (hn.symm.trans (find?_of_text? hs))]
    rfl
  have hsilent := (hskip ▸ S.skipped).isSilent
  rw [E.offsetAfter_eq] at hsilent
  have hlt := E.start_lt
  have hle := E.start_le
  rw [Extraction.textOf, if_pos htext] at hlt
  refine hsilent E.first hn ⟨htext, ?_⟩
  have hlen : E.first.value.length = E.first.value.toList.length := rfl
  rw [front]
  simp only
  omega

/-- The source begins in the place of the first character, unless that is no running text. -/
theorem front_cases (hdoc : doc.WellFormed) (hc : e.container ∈ doc.nodes) {S : item.Stretch doc}
    (hplaces : S.skip ++ S.init = (E.skip ++ E.init).map label) (hlast : S.last = E.last) :
    E.front = (S.first.label, S.offset) ∨
      E.front.1 ∈ S.skip ∧ doc.text? E.front.1 = none := by
  rw [List.map_append] at hplaces
  have heq (hskip : S.skip = E.skip.map label) (hinit : S.init = E.init.map label) :
      E.front = (S.first.label, S.offset) := by
    have hhead := S.head
    rw [hinit, hlast, ← List.map_singleton (f := label), ← List.map_append, List.head?_map,
      E.head] at hhead
    have hoffset := S.startOffset
    rw [hskip, E.offsetAfter_eq] at hoffset
    exact Prod.ext (Option.some.inj hhead) (Int.ofNat.inj hoffset)
  rcases List.append_eq_append_iff.1 hplaces with ⟨t, hskip, hinit⟩ | ⟨t, hskip, hinit⟩
  · cases t with
    | nil => exact .inl (heq (by simpa using hskip.symm) (by simpa using hinit))
    | cons c t => exact absurd hskip (E.skip_ne_append hdoc hc hinit)
  · cases t with
    | nil => exact .inl (heq (by simpa using hskip) (by simpa using hinit.symm))
    | cons c t =>
      have hfirst : E.first.label = c := by
        have hhead := congrArg (Option.map label) E.head
        rw [← List.head?_map, List.map_append, hinit] at hhead
        exact (Option.some.inj hhead).symm
      subst hfirst
      exact .inr ⟨by simp [hskip, front], E.text?_first_of_skip hdoc hc hskip⟩

theorem fits (E : e.Seat o item) (hdoc : doc.WellFormed) (hc : e.container ∈ doc.nodes)
    {l : Location NodeId} (hl : l = item.start ∨ l = item.stop) {t : NodeId} {s : String}
    (ht : l.node = some t) (hs : doc.text? t = some s) : l.offset ≤ s.toList.length := by
  rcases hl with rfl | rfl
  · obtain ⟨y, _, hy, hbegins⟩ := E.begins
    rw [hbegins] at ht ⊢
    obtain rfl := Option.some.inj ht
    have hlt := E.start_lt
    cases hskip : E.skip with
    | nil =>
      rw [hskip] at hy
      obtain rfl := Option.some.inj hy
      have hfirst := E.find? hdoc hc (List.mem_append_right _ (List.mem_of_mem_head? E.head))
      rw [Extraction.textOf_of_text? hfirst hs, hskip, Extraction.pieces, List.map_nil,
        List.append_nil] at hlt
      simp only
      omega
    | cons n ms =>
      rw [hskip] at hy
      obtain rfl := Option.some.inj hy
      have hfull := E.skipped (by simp [hskip])
      have hempty : (o.pieces ms).chars = [] := by
        refine List.flatMap_eq_nil_iff.2 fun piece hpiece => ?_
        obtain ⟨m, hm, rfl⟩ := List.mem_map.1 hpiece
        exact E.empty m (by rw [hskip]; exact hm)
      have hpieces : o.pieces (n :: ms) = ⟨n.label, o.textOf n⟩ :: o.pieces ms := rfl
      rw [hskip, hpieces, Block.chars_append, Block.chars_cons, hempty,
        Extraction.textOf_of_text? (E.find? hdoc hc (by simp [hskip])) hs, List.append_nil,
        List.length_append] at hfull
      simp only at hfull ⊢
      omega
  · obtain ⟨_, hends⟩ := E.ends
    rw [hends] at ht ⊢
    obtain rfl := Option.some.inj ht
    have hle := E.stop_le
    rw [Extraction.textOf_of_text? (E.find? hdoc hc (by simp)) hs] at hle
    simp only
    omega

/-- The place of the first character is the one that the first location leads to. -/
theorem firstCharacter_eq (hdoc : doc.WellFormed) (hc : e.container ∈ doc.nodes) :
    item.firstCharacter doc o = some E.front := by
  obtain ⟨y, _, hy, hbegins⟩ := E.begins
  obtain ⟨ms, hms⟩ := List.head?_eq_some_iff.1 E.head
  have hchildren : E.parent.children = E.ahead ++ (E.skip ++ E.first :: (ms ++ E.behind)) := by
    rw [E.children, ← List.cons_append, ← hms]
    simp
  obtain ⟨after, hafter⟩ : ∃ after, E.skip ++ E.first :: (ms ++ E.behind) = y :: after := by
    cases hskip : E.skip with
    | nil =>
      rw [hskip] at hy
      exact ⟨_, congrArg (· :: _) (Option.some.inj hy)⟩
    | cons n ns =>
      rw [hskip] at hy
      exact ⟨_, congrArg (· :: _) (Option.some.inj hy)⟩
  obtain ⟨hfind, hfollow⟩ :=
    followers_of_children hdoc (E.parent_mem hc) (hafter ▸ hchildren)
  have hle := E.start_le
  have hlt := E.start_lt
  rw [Block.chars_append, List.length_append] at hle hlt
  have hoffset : item.start.offset = ((e.start - E.before.chars.length : Nat) : Int) := by
    rw [hbegins]
    simp only
    omega
  have hpieces : E.skip.map o.piece? = (o.pieces E.skip).map some :=
    Extraction.map_piece?_eq_iff.2 ⟨fun n hn => E.parts n (List.mem_append_left _ hn), rfl⟩
  have hfirst := Extraction.piece?_of_isPart (E.parts E.first
    (List.mem_append_right _ (List.mem_of_mem_head? E.head)))
  rw [Item.firstCharacter, hoffset, hbegins]
  simp only [Option.bind_eq_bind, Option.bind_some, hfind, hfollow]
  rw [← hafter, Extraction.characterAt_eq hpieces hfirst (by omega) (by simp only; omega), front,
    Block.chars_append, List.length_append, Nat.sub_sub]

end Seat

/-- An extent comes before another one of the same container, or has no place with it in common. -/
def Precedes (e f : Extent) : Prop :=
  (e.container = f.container ∧
    (e.string < f.string ∨ e.string = f.string ∧ e.stop ≤ f.start)) ∨
  e.container.labels.Disjoint f.container.labels

end Extent

/-! ### Document order -/

theorem subtreesAll_sublist (ts : List Node) : ts.Sublist (subtreesAll ts) := by
  induction ts with
  | nil => exact .slnil
  | cons t rest ih =>
    rw [subtreesAll_cons]
    exact (ih.trans (List.sublist_append_right _ _)).cons_cons t

theorem Descends.mem_subtrees {container parent : Node} {path : List Node}
    (h : Descends container path parent) : parent ∈ container.subtrees := by
  induction h with
  | here => exact self_mem_subtrees _
  | child _ hchild ih =>
    exact subtrees_trans (mem_subtrees_of_child hchild (self_mem_subtrees _)) ih

theorem Descends.mem_below {container parent n : Node} {path : List Node}
    (h : Descends container path parent) (hn : n ∈ parent.children) :
    n ∈ subtreesAll container.children := by
  have hparent := h.mem_subtrees
  rw [subtrees_eq, List.mem_cons] at hparent
  rcases hparent with rfl | hparent
  · exact mem_subtreesAll_of_mem hn
  · exact mem_subtreesAll_children hn hparent

theorem Descends.children_pairwise {container parent : Node} {path : List Node}
    (h : Descends container path parent) (hlabels : container.labels.Nodup) :
    (parent.children.map label).Pairwise fun a b =>
      container.labels.idxOf a < container.labels.idxOf b := by
  have hparent : parent ∈ subtreesAll [container] :=
    mem_subtreesAll.2 ⟨container, List.mem_singleton_self _, h.mem_subtrees⟩
  have hsub := sublist_subtreesAll hparent
  rw [subtreesAll, subtreesAll, List.append_nil] at hsub
  refine (pairwise_idxOf hlabels).sublist (.trans ?_ (hsub.map label))
  exact ((subtreesAll_sublist _).map label).trans (labels_below_sublist parent)

theorem prefix_of_lt {α : Type} {f : α → Nat} {l before after before' after' : List α} {x y : α}
    (hsorted : l.Pairwise fun a b => f a < f b) (h : l = before ++ x :: after)
    (h' : l = before' ++ y :: after') (hlt : f x < f y) : before ++ [x] <+: before' := by
  rcases List.append_eq_append_iff.1 (h.symm.trans h') with ⟨t, rfl, heq⟩ | ⟨t, rfl, heq⟩
  · cases t with
    | nil =>
      obtain rfl := (List.cons.inj heq).1
      exact absurd hlt (Nat.lt_irrefl _)
    | cons z t =>
      obtain rfl := (List.cons.inj heq).1
      exact ⟨t, by simp⟩
  · cases t with
    | nil =>
      obtain rfl := (List.cons.inj heq).1
      exact absurd hlt (Nat.lt_irrefl _)
    | cons z t =>
      obtain rfl := (List.cons.inj heq).1
      rw [h] at hsorted
      have hgt := (List.pairwise_append.1 hsorted).2.2 y (by simp) x (by simp)
      omega

namespace Extent

section

variable {doc doc₀ : Document} {o : Extraction} {e f : Extent} {item item' : Item}

/-- The last place of an extent comes before the first one of a later extent, or is that place, in
which the later one does not begin before the end of the other. -/
theorem Seat.last_precedes (E : e.Seat o item) (F : f.Seat o item') (he : e.Spans doc o item)
    (hf : f.Spans doc o item') (hdoc : doc.WellFormed) (hsame : e.container = f.container)
    (hlt : e.string < f.string ∨ e.string = f.string ∧ e.stop ≤ f.start) :
    e.container.labels.idxOf E.last.label < e.container.labels.idxOf F.first.label ∨
      E.last.label = F.first.label ∧ E.reach ≤ F.front.2 := by
  obtain ⟨hwithin, hacross⟩ :=
    List.pairwise_flatten.1 (find_pairwise_precedes o (nodup_below hdoc.distinct he.container))
  have hlast : e.block = (E.before ++ o.pieces (E.skip ++ E.init)) ++
      ⟨E.last.label, o.textOf E.last⟩ :: E.after := by
    rw [E.block, ← List.append_assoc E.skip, o.pieces_append]
    simp [Extraction.pieces]
  obtain ⟨ms, hms⟩ := List.head?_eq_some_iff.1 F.head
  have hfirst : f.block = (F.before ++ o.pieces F.skip) ++
      ⟨F.first.label, o.textOf F.first⟩ :: (o.pieces ms ++ F.after) := by
    rw [F.block, hms]
    simp [Extraction.pieces]
  have hget := he.get
  have hget' := hf.get
  rw [← hsame] at hget'
  rcases hlt with hlt | ⟨heq, hle⟩
  · obtain ⟨hi, hblock⟩ := List.getElem?_eq_some_iff.1 hget
    obtain ⟨hj, hblock'⟩ := List.getElem?_eq_some_iff.1 hget'
    refine .inl (List.pairwise_iff_getElem.1 hacross _ _ hi hj hlt
      ⟨E.last.label, o.textOf E.last⟩ ?_ ⟨F.first.label, o.textOf F.first⟩ ?_)
    · rw [hblock, hlast]
      simp
    · rw [hblock', hfirst]
      simp
  · rw [heq] at hget
    have hblocks : e.block = f.block := Option.some.inj (hget.symm.trans hget')
    rw [← hblocks] at hfirst
    rcases Block.located_eq_or_before hlast hfirst hle (.inr E.lt_stop) (Nat.le_of_lt F.start_lt)
      with ⟨hbefore, hpiece⟩ | ⟨mid, hmid⟩
    · refine .inr ⟨congrArg Piece.node hpiece, ?_⟩
      rw [reach, front, hbefore]
      exact Nat.sub_le_sub_right hle _
    · rw [hmid] at hfirst
      have hpieces := hfirst ▸ hwithin _ (List.mem_of_getElem? hget)
      exact .inl ((List.pairwise_append.1 hpieces).2.2 ⟨E.last.label, o.textOf E.last⟩ (by simp)
        ⟨F.first.label, o.textOf F.first⟩ (by simp))

end

end Extent

/-! ### Placements of extents -/

/-- An item with an extent was typeset, and its typeset form is new in the document `doc₀`. -/
structure Item.IsReady (doc doc₀ : Document) (o : Extraction) (e : Extent) (root : NodeId)
    (item : Item) : Prop where
  spans : e.Spans doc o item
  stage : item.stage = .typeset
  reads : item.source.readsStrings = true
  content : item.content = some root
  loose : doc₀.IsLoose root
  new : doc.IsNewIn doc₀ root

namespace Placement

variable {doc doc₀ : Document} {o : Extraction} {e f : Extent} {P Q : Placement doc₀}

/-- The placement stands where the extent lies, and its typeset form is new. -/
structure Lies (doc : Document) (P : Placement doc₀) (E : e.Seat o P.item) : Prop where
  spans : e.Spans doc o P.item
  host : P.stretch.host = E.parent.label
  places : P.stretch.skip ++ P.stretch.init = (E.skip ++ E.init).map label
  last : P.stretch.last = E.last
  reach : P.stretch.reach = E.reach
  front : P.front = E.front
  within : P.front = (P.stretch.first.label, P.stretch.offset) ∨ P.front.1 ∈ P.stretch.skip
  new : doc.IsNewIn doc₀ P.root

theorem exists_of_isReady {item : Item} {root : NodeId} (h : item.IsReady doc doc₀ o e root)
    (hext : doc.Extends doc₀) (hdoc : doc.WellFormed) :
    ∃ (P : Placement doc₀) (E : e.Seat o P.item), P.item = item ∧ P.root = root ∧ P.Lies doc E ∧
      item.firstCharacter doc₀ o = some P.front := by
  have hdoc₀ := hext.wellFormed
  have hc := hext.nodes.subset h.spans.container
  obtain ⟨E⟩ := h.spans.exists_seat
  obtain ⟨S, hhost, hplaces, hlast, hreach⟩ := E.exists_stretch hdoc₀ hc h.spans.lt
  have hfront := E.front_cases hdoc₀ hc hplaces hlast
  have hapart : doc₀.Apart S.host root :=
    h.new.apart hdoc (hhost ▸ List.mem_map_of_mem (E.parent_mem h.spans.container))
  have hpos : 0 < S.reach := by
    have := E.lt_stop
    rw [hreach, Extent.Seat.reach]
    omega
  refine ⟨⟨item, root, S, E.front, h.stage, h.reads, h.content, h.loose, hapart, hpos,
    hfront.imp_right And.right, fun l hl t s ht hs => E.fits hdoc₀ hc hl ht hs⟩, E, rfl, rfl,
    ⟨h.spans, hhost, hplaces, hlast, hreach, rfl, hfront.imp_right And.left, h.new⟩,
    E.firstCharacter_eq hdoc₀ hc⟩

namespace Lies

variable {E : e.Seat o P.item} {F : f.Seat o Q.item}

/-- What a source stands among is in no place of another one. -/
theorem apart (h : P.Lies doc E) (h' : Q.Lies doc F) (hext : doc.Extends doc₀)
    (hdoc : doc.WellFormed) (hor : e.container = f.container ∨
      e.container.labels.Disjoint f.container.labels) :
    ∀ c ∈ P.stretch.places, doc₀.Apart Q.stretch.host c := by
  intro c hc m hm
  rw [Item.Stretch.places, h.places, h.last, ← List.map_singleton (f := label), ← List.map_append,
    List.append_assoc] at hc
  obtain ⟨n, hn, rfl⟩ := List.mem_map.1 hc
  obtain rfl := Option.some.inj
    ((E.find? hext.wellFormed (hext.nodes.subset h.spans.container) hn).symm.trans hm)
  have hbelow : n ∈ subtreesAll e.container.children := by
    refine E.descends.mem_below ?_
    rw [E.children]
    simp only [List.mem_append, List.mem_cons] at hn ⊢
    tauto
  rw [Tree.find?, List.find?_eq_none]
  intro s hs hl
  have hl : s.label = F.parent.label := (of_decide_eq_true hl).trans h'.host
  rcases hor with hsame | hdisjoint
  · have hs' : s ∈ doc.nodes :=
      subtreesAll_trans hs (mem_subtreesAll_of_below hbelow h.spans.container)
    obtain rfl := eq_of_label_eq hdoc.distinct hs' (F.parent_mem h'.spans.container) hl
    exact Extraction.not_mem_subtrees_of_isPart hdoc h.spans.container hbelow (E.parts n hn)
      (hsame ▸ F.descends) F.reaches hs
  · refine hdisjoint (a := s.label) (List.mem_map_of_mem ?_) (hl ▸ List.mem_map_of_mem ?_)
    · exact subtrees_trans hs (mem_subtrees_of_below hbelow)
    · exact F.descends.mem_subtrees

/-- Among the children of one place a source stands before a later one, or in its first place too,
not beyond where the later one begins. -/
theorem order (h : P.Lies doc E) (h' : Q.Lies doc F) (hext : doc.Extends doc₀)
    (hdoc : doc.WellFormed) (hhost : E.parent.label = F.parent.label)
    (hlt : e.container.labels.idxOf E.last.label < e.container.labels.idxOf F.first.label ∨
      E.last.label = F.first.label ∧ E.reach ≤ F.front.2) :
    P.stretch.upTo ++ [P.stretch.last.label] <+: Q.stretch.before ∨
    P.stretch.upTo = Q.stretch.before ∧ P.stretch.last.label = Q.stretch.first.label ∧
      P.stretch.reach ≤ Q.stretch.offset ∧ Q.front = (Q.stretch.first.label, Q.stretch.offset) := by
  have hdoc₀ := hext.wellFormed
  have hsorted := E.descends.children_pairwise (nodup_below hdoc.distinct h.spans.container)
  rw [← hdoc₀.kids_label (E.parent_mem (hext.nodes.subset h.spans.container))] at hsorted
  have hkids := h.host ▸ P.stretch.kids_eq
  obtain ⟨after, hafter⟩ := List.head?_eq_some_iff.1 Q.stretch.head
  have hkids' := h'.host ▸ Q.stretch.kids_before
  rw [← hhost, hafter, List.cons_append] at hkids'
  have hfirst : F.first.label = Q.front.1 := h'.front ▸ rfl
  rw [← h.last, hfirst] at hlt
  rcases h'.within with hfront | hskip
  · rw [hfront] at hlt
    rcases hlt with hlt | ⟨heq, hreach⟩
    · exact .inl (prefix_of_lt hsorted hkids hkids' hlt)
    · rw [heq] at hkids
      have hnodup := hdoc₀.nodup_kids E.parent.label
      have hnot := (List.nodup_cons.1 (List.nodup_middle.1 (hkids ▸ hnodup))).1
      rw [List.mem_append, not_or] at hnot
      rw [← h'.front, hfront, ← h.reach] at hreach
      exact .inr ⟨((List.append_cons_inj_of_notMem hnot.1 hnot.2).1 (hkids.symm.trans hkids')).1,
        heq, hreach, hfront⟩
  · have hbefore : Q.front.1 ∈ Q.stretch.before := List.mem_append_right _ hskip
    have hskipped := (List.pairwise_append.1 (hkids' ▸ hsorted)).2.2 _ hbefore
      Q.stretch.first.label (List.mem_cons_self ..)
    refine .inl (prefix_of_lt hsorted hkids hkids' ?_)
    rcases hlt with hlt | ⟨heq, -⟩
    · exact Nat.lt_trans hlt hskipped
    · exact heq ▸ hskipped

theorem precedes (h : P.Lies doc E) (h' : Q.Lies doc F) (hext : doc.Extends doc₀)
    (hdoc : doc.WellFormed) (hprec : e.Precedes f) (hne : P.root ≠ Q.root) : P.Precedes Q where
  distinct := hne
  apartRoot := by
    refine h.new.apart hdoc (h'.host ▸ List.mem_map_of_mem ?_)
    exact F.parent_mem h'.spans.container
  apart := h.apart h' hext hdoc (hprec.imp_left And.left)
  apart' := h'.apart h hext hdoc (hprec.imp (fun h => h.1.symm) fun h a ha hb => h hb ha)
  order := by
    intro hhost
    rw [h.host, h'.host] at hhost
    rcases hprec with ⟨hsame, hlt⟩ | hdisjoint
    · exact h.order h' hext hdoc hhost (E.last_precedes F h.spans h'.spans hdoc hsame hlt)
    · have hparent := List.mem_map_of_mem (f := label) E.descends.mem_subtrees
      exact absurd (hhost ▸ List.mem_map_of_mem F.descends.mem_subtrees) (hdisjoint hparent)

end Lies

end Placement

end Formulary
