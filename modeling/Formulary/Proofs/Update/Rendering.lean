import Formulary.Proofs.Document.Symbols

/-! # What an update has done so far

An update puts items into a document from the last to the first.  `Rendering` describes the
document in the middle of it: every place of the document at the beginning has given way to a
list of places (`shown`), which is what is left of it with the typeset forms among it.

The invariant that makes an offset of a pending item meaningful is `Rendering.front`: a string
whose beginning is still in the document stands at the head of its list, holds the text up to the
next stretch that has been replaced, and is what the replacements lead to.

`Rendering.exists_inserted` puts in one source more, and `Inserted` says what the document is
then. -/

namespace Formulary

open Formulary.Tree Document

/-- A place that is not running text. -/
def Document.IsMute (doc : Document) (id : NodeId) : Prop :=
  ∃ f, doc.shell? id = some f ∧ f.isText = false

/-- The blocks stand in the document: each among the children of one place, and none with a place
of another.  What is not running text in them is at most a line break. -/
structure Layout (doc : Document) (blocks : List Block) : Prop where
  host : ∀ b ∈ blocks, ∃ p before after, doc.kids p = before ++ b.map Piece.node ++ after
  distinct : (blocks.flatten.map Piece.node).Nodup
  said : ∀ c ∈ blocks.flatten, doc.text? c.node = some c.text ∨
    doc.IsMute c.node ∧ (c.text.toList = [] ∨ c.text.toList = ['\n'])

/-- A place that something has given way to. -/
def IsPut (xs : List Insertion) (swap : NodeId → NodeId) (v : NodeId) : Prop :=
  (∃ x ∈ xs, x.root = v) ∨ ∃ id, id ≠ v ∧ swap id = v

/-- The document `doc` is `doc₀` in the middle of an update: the stretches `xs` of the blocks and
the places that `swap` changes have given way to places, and in all `shown id` stands where the
place `id` stood. -/
structure Rendering (doc₀ : Document) (blocks : List Block) (rank : NodeId → Nat)
    (xs : List Insertion) (swap : NodeId → NodeId) (doc : Document) (replaced : List Replacement)
    (shown : NodeId → List NodeId) : Prop where
  wellFormed : doc.WellFormed
  root : doc.root.label = doc₀.root.label
  fresh : doc₀.fresh ≤ doc.fresh
  ids : ∀ id ∈ doc₀.ids, id ∈ doc.ids
  shell : ∀ id ∈ doc₀.ids, doc.shell? id = doc₀.shell? id
  ranked : doc.Ranked rank
  kids : ∀ p ∈ doc₀.ids, doc.kids p = (doc₀.kids p).flatMap shown
  added : ∀ id ∈ doc.ids, id ∉ doc₀.ids → doc₀.fresh ≤ id ∧ doc.kids id = []
  own : ∀ u, ∀ v ∈ shown u,
    v = u ∨ doc₀.fresh ≤ v ∨ IsPut xs swap v ∧ v ∈ doc.ids ∧ doc.text? v = none
  text : ∀ u ∈ occurrences blocks, doc₀.text? u.piece.node = some u.piece.text →
    (shown u.piece.node).flatMap doc.symbols =
      Insertion.shownText xs u.string u.offset u.piece.text.toList
  mute : ∀ u ∈ occurrences blocks, doc₀.text? u.piece.node = none →
    shown u.piece.node =
      if xs.any fun x => x.surrounds u.string u.offset then [] else [u.piece.node]
  front : ∀ u ∈ occurrences blocks, doc₀.text? u.piece.node = some u.piece.text →
    (∀ x ∈ xs, x.string = u.string → u.offset < x.start) →
    ∃ n rest, shown u.piece.node = Session.current replaced u.piece.node :: rest ∧
      doc.text? (Session.current replaced u.piece.node) =
        some (String.ofList (u.piece.text.toList.take n)) ∧
      (u.piece.text.toList.length ≤ n ∨
        ∃ x ∈ xs, x.string = u.string ∧ x.start = u.offset + n)
  untouched : ∀ u ∈ occurrences blocks,
    (∀ x ∈ xs, x.string = u.string → u.offset < x.start ∧
      u.offset + u.piece.text.toList.length ≤ x.start) →
    shown u.piece.node = [u.piece.node] ∧
      Session.current replaced u.piece.node = u.piece.node
  other : ∀ id ∈ doc₀.ids, id ∉ blocks.flatten.map Piece.node →
    shown id = [swap id] ∧ Session.current replaced id = id

namespace Document

variable {doc : Document} {id : NodeId}

theorem IsMute.text?_eq_none (h : doc.IsMute id) : doc.text? id = none := by
  obtain ⟨f, hf, htext⟩ := h
  cases ht : doc.text? id with
  | none => rfl
  | some s =>
    rw [text?_eq_some.1 ht, Option.some.injEq] at hf
    subst hf
    cases htext

theorem IsMute.isSilent (h : doc.IsMute id) (offset : Int) : Item.IsSilent doc offset id := by
  rintro n hn ⟨htext, -⟩
  obtain ⟨f, hf, hmute⟩ := h
  rw [shell?, hn, Option.map_some, Option.some.injEq] at hf
  subst hf
  cases n with
  | string label kind value => exact Bool.false_ne_true (hmute.symm.trans htext)
  | element label tag attributes children => exact Bool.false_ne_true (hmute.symm.trans htext)

theorem isSilent_of_text? {s : String} (h : doc.text? id = some s) {offset : Int}
    (hle : s.toList.length ≤ offset) : Item.IsSilent doc offset id := by
  rintro n hn ⟨-, hlt⟩
  rw [find?_of_text? h, Option.some.injEq] at hn
  subst hn
  exact absurd hlt (Int.not_lt.2 hle)

end Document

/-- The item with its typeset form `root` in the document. -/
def Item.inserted (item : Item) (root : NodeId) : Item :=
  { item with
    start := ⟨some root, 0, item.start.delimiter⟩
    stop := ⟨some root, 0, item.stop.delimiter⟩
    stage := .inserted }

theorem Item.update_eq {item : Item} {start stop root : NodeId} {doc' : Document}
    {rs : List Replacement} (hstage : item.stage ≠ .inserted)
    (hstart : item.start.node = some start) (hstop : item.stop.node = some stop)
    (hplace : item.place doc start stop = .ok (doc', root, rs)) :
    item.update doc = .ok (doc', item.inserted root, rs) := by
  rw [Item.update, if_neg hstage, hstart, hstop]
  simp only [hplace, bind, Except.bind]
  rfl

namespace Rendering

variable {doc₀ doc : Document} {blocks : List Block} {rank : NodeId → Nat} {xs : List Insertion}
  {swap : NodeId → NodeId} {replaced : List Replacement} {shown : NodeId → List NodeId}

theorem start (h : doc₀.WellFormed) (hrank : doc₀.Ranked rank) :
    Rendering doc₀ blocks rank [] id doc₀ [] fun id => [id] where
  wellFormed := h
  root := rfl
  fresh := Nat.le_refl _
  ids := fun _ hid => hid
  shell := fun _ _ => rfl
  ranked := hrank
  kids := fun p _ => (List.flatMap_singleton' (doc₀.kids p)).symm
  added := fun _ hid hnot => absurd hid hnot
  own := fun u v hv => .inl (List.mem_singleton.1 hv)
  text := fun u _ htext => by
    rw [List.flatMap_singleton, Document.symbols_of_text? htext,
      Insertion.shownText_of_not_covers (by simp)]
  mute := fun _ _ _ => rfl
  front := fun u _ htext _ =>
    ⟨u.piece.text.toList.length, [], rfl, by simpa [Session.current] using htext,
      .inl (Nat.le_refl _)⟩
  untouched := fun _ _ _ => ⟨rfl, rfl⟩
  other := fun _ _ _ => ⟨rfl, rfl⟩

theorem text? (R : Rendering doc₀ blocks rank xs swap doc replaced shown) {id : NodeId}
    (hid : id ∈ doc₀.ids) : doc.text? id = doc₀.text? id := by
  rw [Document.text?, Document.text?, R.shell id hid]

theorem isMute (R : Rendering doc₀ blocks rank xs swap doc replaced shown) {id : NodeId}
    (h : doc₀.IsMute id) : doc.IsMute id := by
  obtain ⟨f, hf, htext⟩ := h
  refine ⟨f, ?_, htext⟩
  rw [R.shell id (Document.shell?_isSome_iff.1 (by rw [hf]; rfl)), hf]

theorem added_reshaped (R : Rendering doc₀ blocks rank xs swap doc replaced shown)
    {doc' : Document} {p : NodeId} {children : List NodeId} (h : doc.Reshaped doc' p children)
    (hp : p ∈ doc₀.ids) :
    ∀ id ∈ doc'.ids, id ∉ doc₀.ids → doc₀.fresh ≤ id ∧ doc'.kids id = [] := fun id hid hnot => by
  by_cases hmem : id ∈ doc.ids
  · obtain ⟨hle, hkids⟩ := R.added id hmem hnot
    exact ⟨hle, (h.elsewhere id hmem fun heq => hnot (heq ▸ hp)).trans hkids⟩
  · obtain ⟨hle, hkids⟩ := h.added id hid hmem
    exact ⟨Nat.le_trans R.fresh hle, hkids⟩

theorem origin_unique (R : Rendering doc₀ blocks rank xs swap doc replaced shown)
    {u u' p p' v : NodeId} (hu : u ∈ doc₀.kids p) (hu' : u' ∈ doc₀.kids p')
    (hv : v ∈ shown u) (hv' : v ∈ shown u') : u = u' := by
  have hp := (Document.mem_ids_of_mem_kids hu).2
  have hp' := (Document.mem_ids_of_mem_kids hu').2
  have hkid : v ∈ doc.kids p := R.kids p hp ▸ List.mem_flatMap.2 ⟨u, hu, hv⟩
  have hkid' : v ∈ doc.kids p' := R.kids p' hp' ▸ List.mem_flatMap.2 ⟨u', hu', hv'⟩
  obtain rfl := R.wellFormed.parent_unique hkid hkid'
  by_contra hne
  have hnodup := R.kids p hp ▸ R.wellFormed.nodup_kids p
  have : Std.Symm (Function.onFun List.Disjoint shown) := ⟨fun _ _ h => List.disjoint_symm h⟩
  exact (List.nodup_flatMap.1 hnodup).2.forall hu hu' hne hv hv'

end Rendering

/-! ### The source of an item -/

/-- A stretch of a block that begins and ends in running text. -/
structure IsSource (blocks : List Block) (block : Block) (x : Insertion) : Prop where
  get : blocks[x.string]? = some block
  lt : x.start < x.stop
  le : x.stop ≤ block.chars.length
  first : ∃ c, block.chars[x.start]? = some c ∧ c ≠ '\n'
  last : ∃ c, block.chars[x.stop - 1]? = some c ∧ c ≠ '\n'

section

variable {doc₀ doc : Document} {blocks : List Block} {block : Block} {rank : NodeId → Nat}
  {xs : List Insertion} {x : Insertion} {swap : NodeId → NodeId} {replaced : List Replacement}
  {shown : NodeId → List NodeId}

theorem IsSource.mem (h : IsSource blocks block x) : block ∈ blocks :=
  List.mem_of_getElem? h.get

theorem IsSource.occurs (h : IsSource blocks block x) {before after : Block} {c : Piece}
    (heq : block = before ++ c :: after) :
    ⟨x.string, before.chars.length, c⟩ ∈ occurrences blocks :=
  mem_occurrences.2 ⟨block, before, after, h.get, heq, rfl⟩

theorem IsSource.exists_host (h : IsSource blocks block x) (layout : Layout doc blocks) :
    ∃ p ahead behind, doc.kids p = ahead ++ block.map Piece.node ++ behind ∧ p ∈ doc.ids := by
  obtain ⟨p, ahead, behind, hkids⟩ := layout.host block h.mem
  refine ⟨p, ahead, behind, hkids, ?_⟩
  by_contra hp
  rw [kids_eq_nil hp] at hkids
  have hnil := List.append_eq_nil_iff.1 (List.append_eq_nil_iff.1 hkids.symm).1
  have hlt := Nat.lt_of_lt_of_le h.lt h.le
  rw [List.map_eq_nil_iff.1 hnil.2] at hlt
  exact Nat.not_lt_zero _ hlt

theorem Layout.text_eq (layout : Layout doc blocks) {u : Occurrence} (hu : u ∈ occurrences blocks)
    {t : String} (htext : doc.text? u.piece.node = some t) : t = u.piece.text := by
  rcases layout.said _ (occurrencesFrom_map 0 blocks ▸ List.mem_map_of_mem hu) with hsaid |
    ⟨hmute, -⟩
  · exact Option.some.inj (htext.symm.trans hsaid)
  · rw [hmute.text?_eq_none] at htext
    cases htext

/-- A place that is no running text is read as nothing or as a line break. -/
theorem Layout.chars_of_mute (layout : Layout doc blocks) {u : Occurrence}
    (hu : u ∈ occurrences blocks) (hmute : doc.text? u.piece.node = none) :
    u.piece.text.toList = [] ∨ u.piece.text.toList = ['\n'] := by
  rcases layout.said _ (occurrencesFrom_map 0 blocks ▸ List.mem_map_of_mem hu) with hsaid |
    ⟨-, hchars⟩
  · rw [hmute] at hsaid
    cases hsaid
  · exact hchars

/-- A piece that holds a character other than a line break is running text. -/
theorem Layout.text?_of_char (layout : Layout doc₀ blocks) (hblock : block ∈ blocks) {i : Nat}
    {c : Char} (hc : block.chars[i]? = some c) (hne : c ≠ '\n') {before after : Block} {z : Piece}
    (heq : block = before ++ z :: after) (hle : before.chars.length ≤ i)
    (hlt : i < before.chars.length + z.text.toList.length) :
    doc₀.text? z.node = some z.text := by
  have hz : z ∈ blocks.flatten := List.mem_flatten.2 ⟨block, hblock, by simp [heq]⟩
  rcases layout.said z hz with h | ⟨-, h | h⟩
  · exact h
  · rw [h, List.length_nil] at hlt
    omega
  · have hi : i - before.chars.length = 0 := by
      rw [h, List.length_singleton] at hlt
      omega
    rw [heq, Block.chars_append, List.getElem?_append_right hle, Block.chars_cons, h, hi] at hc
    exact absurd (Option.some.inj hc).symm hne

namespace Rendering

/-- A piece in front of the end of a source that is put in next is as it was. -/
theorem shown_eq_self (R : Rendering doc₀ blocks rank xs swap doc replaced shown)
    (hx : IsSource blocks block x) (horder : ∀ y ∈ xs, y.string = x.string → x.stop ≤ y.start)
    {before after : Block} {c : Piece} (heq : block = before ++ c :: after)
    (hlt : before.chars.length + c.text.toList.length < x.stop) :
    shown c.node = [c.node] ∧ Session.current replaced c.node = c.node := by
  refine R.untouched _ (hx.occurs heq) fun y hy hj => ?_
  have := horder y hy hj
  exact ⟨show before.chars.length < y.start by omega, by simpa using by omega⟩

theorem shown_eq_self_of_mem (R : Rendering doc₀ blocks rank xs swap doc replaced shown)
    (hx : IsSource blocks block x) (horder : ∀ y ∈ xs, y.string = x.string → x.stop ≤ y.start)
    {before stretch after : Block} (heq : block = before ++ stretch ++ after)
    (hlt : (before ++ stretch).chars.length < x.stop) {c : Piece} (hc : c ∈ stretch) :
    shown c.node = [c.node] ∧ Session.current replaced c.node = c.node := by
  obtain ⟨us, vs, rfl⟩ := List.append_of_mem hc
  have hsplit : block = (before ++ us) ++ c :: (vs ++ after) := by simpa using heq
  refine R.shown_eq_self hx horder hsplit ?_
  simp only [Block.chars_append, Block.chars_cons, List.length_append] at hlt ⊢
  omega

theorem flatMap_shown_eq_self (R : Rendering doc₀ blocks rank xs swap doc replaced shown)
    (hx : IsSource blocks block x) (horder : ∀ y ∈ xs, y.string = x.string → x.stop ≤ y.start)
    {before stretch after : Block} (heq : block = before ++ stretch ++ after)
    (hlt : (before ++ stretch).chars.length < x.stop) :
    (stretch.map Piece.node).flatMap shown = stretch.map Piece.node := by
  have hall : ∀ u ∈ stretch.map Piece.node, shown u = [u] := fun u hu => by
    obtain ⟨c, hc, rfl⟩ := List.mem_map.1 hu
    exact (R.shown_eq_self_of_mem hx horder heq hlt hc).1
  rw [List.flatMap_def, List.map_congr_left hall, ← List.flatMap_def]
  exact List.flatMap_singleton' _

theorem exists_front (R : Rendering doc₀ blocks rank xs swap doc replaced shown)
    (hx : IsSource blocks block x) (horder : ∀ y ∈ xs, y.string = x.string → x.stop ≤ y.start)
    {before after : Block} {w : Piece} (heq : block = before ++ w :: after)
    (htext : doc₀.text? w.node = some w.text) (hlt : before.chars.length < x.stop)
    (hle : x.stop ≤ before.chars.length + w.text.toList.length) :
    ∃ n rest, shown w.node = Session.current replaced w.node :: rest ∧
      doc.text? (Session.current replaced w.node) =
        some (String.ofList (w.text.toList.take n)) ∧ x.stop - before.chars.length ≤ n := by
  have hfront := R.front _ (hx.occurs heq) htext fun y hy hj => by
    have := horder y hy hj
    exact show before.chars.length < y.start by omega
  obtain ⟨n, rest, hshown, hs, hn⟩ := hfront
  refine ⟨n, rest, hshown, hs, ?_⟩
  rcases hn with hn | ⟨y, hy, hj, hn⟩
  · have : w.text.toList.length ≤ n := hn
    omega
  · have h1 := horder y hy hj
    have h2 : y.start = before.chars.length + n := hn
    omega

theorem isSilent_of_nil (R : Rendering doc₀ blocks rank xs swap doc replaced shown)
    (layout : Layout doc₀ blocks) {c : Piece} (hc : c ∈ blocks.flatten) {offset : Int}
    (hle : (c.text.toList.length : Int) ≤ offset) : Item.IsSilent doc offset c.node := by
  rcases layout.said c hc with h | ⟨h, -⟩
  · exact isSilent_of_text? ((R.text? (mem_ids_of_text? h)).trans h) hle
  · exact (R.isMute h).isSilent offset

/-- The pieces between the located start of a source and its first character. -/
theorem silent_skip (R : Rendering doc₀ blocks rank xs swap doc replaced shown)
    (layout : Layout doc₀ blocks) (hx : IsSource blocks block x) {before skip core after : Block}
    (span : Block.Span block x.start x.stop before skip core after) :
    (∀ c ∈ (skip.map Piece.node).head?,
      Item.IsSilent doc (x.start - (before.chars.length : Int)) c) ∧
    (∀ c ∈ (skip.map Piece.node).tail, Item.IsSilent doc 0 c) ∧
    Item.offsetAfter (skip.map Piece.node) (x.start - (before.chars.length : Int)) =
      ((x.start - (before ++ skip).chars.length : Nat) : Int) := by
  have hmem : ∀ c ∈ skip, c ∈ blocks.flatten := fun c hc =>
    List.mem_flatten.2 ⟨block, hx.mem, by simp [span.eq, hc]⟩
  cases skip with
  | nil =>
    obtain ⟨z, rest, -, hle, -⟩ := span.first
    rw [List.append_nil] at hle
    refine ⟨by simp, by simp, ?_⟩
    rw [List.append_nil, Int.ofNat_sub hle]
    rfl
  | cons c skip =>
    have hstart := span.skipped (by simp)
    have hempty : Block.chars skip = [] := List.flatMap_eq_nil_iff.2 span.empty
    rw [Block.chars_append, Block.chars_cons, hempty, List.append_nil, List.length_append] at hstart
    refine ⟨fun d hd => ?_, fun d hd => ?_, ?_⟩
    · obtain rfl := Option.some.inj hd
      exact R.isSilent_of_nil layout (hmem c (List.mem_cons_self ..)) (by omega)
    · obtain ⟨e, he, rfl⟩ := List.mem_map.1 hd
      refine R.isSilent_of_nil layout (hmem e (List.mem_cons_of_mem _ he)) ?_
      rw [span.empty e he]
      exact Int.le_refl _
    · rw [Block.chars_append, Block.chars_cons, hempty, List.append_nil, List.length_append, hstart,
        Nat.sub_self]
      rfl

/-- The children around a source that is put in next. -/
theorem kids_around (R : Rendering doc₀ blocks rank xs swap doc replaced shown)
    (hx : IsSource blocks block x) (horder : ∀ y ∈ xs, y.string = x.string → x.stop ≤ y.start)
    {before skip init after : Block} {w : Piece}
    (heq : block = before ++ skip ++ init ++ w :: after)
    (hlt : (before ++ skip ++ init).chars.length < x.stop) {rest : List NodeId}
    (hfront : shown w.node = Session.current replaced w.node :: rest) {p : NodeId}
    {ahead behind : List NodeId} (hkids : doc₀.kids p = ahead ++ block.map Piece.node ++ behind) :
    doc.kids p = (ahead ++ before.map Piece.node).flatMap shown ++
      (skip.map Piece.node ++ (init.map Piece.node ++ Session.current replaced w.node ::
        (rest ++ (after.map Piece.node ++ behind).flatMap shown))) := by
  have hp : p ∈ doc₀.ids := by
    refine (mem_ids_of_mem_kids (c := w.node) ?_).2
    simp [hkids, heq]
  have hskip : (skip.map Piece.node).flatMap shown = skip.map Piece.node := by
    have hblock : block = before ++ skip ++ (init ++ w :: after) := by simpa using heq
    refine R.flatMap_shown_eq_self hx horder hblock ?_
    rw [Block.chars_append, List.length_append] at hlt
    omega
  have hinit : (init.map Piece.node).flatMap shown = init.map Piece.node :=
    R.flatMap_shown_eq_self hx horder heq hlt
  rw [R.kids p hp, hkids, heq]
  simp only [List.map_append, List.flatMap_append, hskip, hinit, List.map_cons, List.flatMap_cons,
    hfront, List.append_assoc, List.cons_append]

/-- The located start of a source leads to the first of the places from there on. -/
theorem head_around (R : Rendering doc₀ blocks rank xs swap doc replaced shown)
    (hx : IsSource blocks block x) (horder : ∀ y ∈ xs, y.string = x.string → x.stop ≤ y.start)
    {before skip core after : Block} (heq : block = before ++ skip ++ (core ++ after))
    (hlt : (before ++ skip).chars.length < x.stop) {y z : Piece}
    (hy : (skip ++ core).head? = some y) (hz : core.head? = some z) (others : List NodeId) :
    (skip.map Piece.node ++ Session.current replaced z.node :: others).head? =
      some (Session.current replaced y.node) := by
  cases skip with
  | nil =>
    obtain rfl : z = y := Option.some.inj (hz.symm.trans hy)
    rfl
  | cons c skip =>
    obtain rfl : c = y := Option.some.inj hy
    -- what is skipped is in front of the source, so it is as it was
    exact congrArg some
      (R.shown_eq_self_of_mem hx horder heq hlt (List.mem_cons_self ..)).2.symm

end Rendering

/-- The document `doc'` is `doc` with `x.root` in place of the source `x`. -/
structure Inserted (doc₀ : Document) (block : Block) (rank : NodeId → Nat) (x : Insertion)
    (doc : Document) (replaced : List Replacement) (shown : NodeId → List NodeId)
    (doc' : Document) (rs : List Replacement) where
  /-- The place among whose children the source is. -/
  host : NodeId
  ahead : List NodeId
  behind : List NodeId
  before : Block
  skip : Block
  init : Block
  after : Block
  /-- The string in which the source begins. -/
  z : Piece
  /-- The string in which the source ends, which has `n` characters left. -/
  w : Piece
  n : Nat
  rest : List NodeId
  left : List NodeId
  right : List NodeId
  kids : doc₀.kids host = ahead ++ block.map Piece.node ++ behind
  span : Block.Span block x.start x.stop before skip (init ++ [w]) after
  head : (init ++ [w]).head? = some z
  textFirst : doc₀.text? z.node = some z.text
  textLast : doc₀.text? w.node = some w.text
  front : shown w.node = Session.current replaced w.node :: rest
  textFront : doc.text? (Session.current replaced w.node) =
    some (String.ofList (w.text.toList.take n))
  enough : x.stop - (before ++ skip ++ init).chars.length ≤ n
  awaits : Item.Awaits doc rank host x.root
  placed : Item.Placed doc doc' host
    ((ahead ++ before.map Piece.node).flatMap shown ++ skip.map Piece.node)
    (rest ++ (after.map Piece.node ++ behind).flatMap shown)
    (Session.current replaced z.node) (Session.current replaced w.node)
    (z.text.toList.take (x.start - (before ++ skip).chars.length))
    ((w.text.toList.take n).drop (x.stop - (before ++ skip ++ init).chars.length))
    x.root rs left right

namespace Rendering

/-- The typeset form of an item takes the place of its source. -/
theorem exists_inserted (R : Rendering doc₀ blocks rank xs swap doc replaced shown)
    (layout : Layout doc₀ blocks) (hx : IsSource blocks block x)
    (horder : ∀ y ∈ xs, y.string = x.string → x.stop ≤ y.start) {item : Item}
    (hreads : item.source.readsStrings = true) (hcontent : item.content = some x.root)
    (hstage : item.stage ≠ .inserted) {opener closer : String}
    (hstart : item.start = Session.moved replaced (locate block.runs x.start opener))
    (hstop : item.stop = Session.moved replaced (locate block.runs x.stop closer))
    {p : NodeId} {ahead behind : List NodeId}
    (hkids : doc₀.kids p = ahead ++ block.map Piece.node ++ behind)
    (hawaits : Item.Awaits doc rank p x.root) :
    ∃ doc' rs, item.update doc = .ok (doc', item.inserted x.root, rs) ∧
      Nonempty (Inserted doc₀ block rank x doc replaced shown doc' rs) := by
  obtain ⟨before, skip, core, after, span⟩ := Block.exists_span hx.lt hx.le
  obtain ⟨init, w, rfl, hinit, hw, hlocstop⟩ := span.last
  obtain ⟨z, tail, hcore, hz, hz'⟩ := span.first
  obtain ⟨y, hy, hlocstart⟩ := span.begins
  have hsplit : block = (before ++ skip ++ init) ++ w :: after := by simpa using span.eq
  have hsplitz : block = (before ++ skip) ++ z :: (tail ++ after) := by
    have := span.eq
    rw [hcore] at this
    simpa using this
  have hheadz : (init ++ [w]).head? = some z := by rw [hcore]; rfl
  -- both ends of the source are running text
  obtain ⟨c, hc, hne⟩ := hx.first
  have hztext := layout.text?_of_char hx.mem hc hne hsplitz hz hz'
  obtain ⟨c', hc', hne'⟩ := hx.last
  have hwtext := layout.text?_of_char hx.mem hc' hne' hsplit (by omega) (by omega)
  obtain ⟨n, rest, hshown, hcur, hn⟩ := R.exists_front hx horder hsplit hwtext hinit hw
  have hdoc := R.kids_around hx horder hsplit hinit hshown hkids
  have hhead := R.head_around hx horder (by simpa using span.eq)
    (Nat.lt_of_le_of_lt hz hx.lt) hy hheadz
  obtain ⟨hsilent, htail, hfrom⟩ := R.silent_skip layout hx span
  have hapart := hawaits.apart R.wellFormed
  -- what the item says of its ends
  have hstartnode : item.start.node = some (Session.current replaced y.node) := by
    rw [hstart, hlocstart]
    rfl
  have hstopnode : item.stop.node = some (Session.current replaced w.node) := by
    rw [hstop, hlocstop]
    rfl
  have hoffset : item.start.offset = x.start - (before.chars.length : Int) := by
    rw [hstart, hlocstart]
    rfl
  have hstopoffset : item.stop.offset =
      ((x.stop - (before ++ skip ++ init).chars.length : Nat) : Int) := by
    rw [hstop, hlocstop]
    exact (Int.ofNat_sub (Nat.le_of_lt hinit)).symm
  rw [← hoffset] at hsilent hfrom
  suffices h : ∃ doc' rs left right,
      item.place doc (Session.current replaced y.node) (Session.current replaced w.node) =
        .ok (doc', x.root, rs) ∧
      Item.Placed doc doc' p
        ((ahead ++ before.map Piece.node).flatMap shown ++ skip.map Piece.node)
        (rest ++ (after.map Piece.node ++ behind).flatMap shown)
        (Session.current replaced z.node) (Session.current replaced w.node)
        (z.text.toList.take (x.start - (before ++ skip).chars.length))
        ((w.text.toList.take n).drop (x.stop - (before ++ skip ++ init).chars.length))
        x.root rs left right by
    obtain ⟨doc', rs, left, right, hplace, hplaced⟩ := h
    exact ⟨doc', rs, Item.update_eq hstage hstartnode hstopnode hplace,
      ⟨p, ahead, behind, before, skip, init, after, z, w, n, rest, left, right, hkids, span, hheadz,
        hztext, hwtext, hshown, hcur, hn, hawaits, hplaced⟩⟩
  cases init with
  | nil =>
    -- the source is in one place, of which a later source has left the first `n` characters
    obtain ⟨rfl, rfl⟩ := List.cons.inj hcore
    have hlt := hx.lt
    simp only [List.append_nil] at hinit hn hstopoffset ⊢
    obtain ⟨doc', rs, left, right, hplace, hplaced, -⟩ := Item.place_within R.wellFormed hreads
      (w := .string _ .text _) hcontent hawaits.loose hapart hdoc (hhead _) hsilent htail
      (find?_of_text? hcur) hfrom hstopoffset (by omega)
    rw [Tree.value, String.toList_ofList, List.take_take, Nat.min_eq_left (by omega)] at hplaced
    exact ⟨doc', rs, left, right, hplace, hplaced⟩
  | cons z' mid =>
    -- the place in which the source begins is in front of all later sources
    obtain ⟨rfl, rfl⟩ := List.cons.inj hcore
    have hself := (R.shown_eq_self hx horder hsplitz (by
      simp only [Block.chars_append, Block.chars_cons, List.length_append] at hinit ⊢
      omega)).2
    rw [hself] at hhead ⊢
    have hzdoc : doc.text? z'.node = some z'.text :=
      (R.text? (mem_ids_of_text? hztext)).trans hztext
    obtain ⟨doc', rs, left, right, hplace, hplaced, -⟩ := Item.place_across R.wellFormed hreads
      (z := .string _ .text _) (w := .string _ .text _) hcontent hawaits.loose hapart hdoc (hhead _)
      hsilent htail (find?_of_text? hzdoc) rfl (find?_of_text? hcur) hfrom hstopoffset
      (show _ < z'.text.toList.length by omega)
    rw [Tree.value, Tree.value, String.toList_ofList] at hplaced
    exact ⟨doc', rs, left, right, hplace, hplaced⟩

end Rendering

end

end Formulary
