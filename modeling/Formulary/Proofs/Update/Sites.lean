import Formulary.Proofs.Discovery.Candidates
import Formulary.Proofs.Discovery.StableSort
import Formulary.Proofs.Update.Exchanges

/-! # Where an item stands

A discovered item stands among the children of one place, as an element or in strings
(`Item.Stands`).  A source in strings goes from its first location to its last one.  The place of
the first location need not be the one in which the source begins: places whose text does not go on
beyond the offset are passed over (`Item.exists_skip`).  What is left is a stretch of siblings
(`Item.Stretch`).

The typeset form takes up the site of the source (`Item.StoodAt`): between the places passed over,
with what is before the source in its first place, and what is after it in its last place
(`Item.Stands.exists_place`). -/

namespace Formulary

open Formulary.Tree Document

/-- A gap among the children of a place. -/
structure Site where
  host : NodeId
  before : List NodeId
  after : List NodeId
deriving DecidableEq, Repr

/-- The place `id` fills the gap. -/
def Site.Holds (site : Site) (doc : Document) (id : NodeId) : Prop :=
  doc.kids site.host = site.before ++ id :: site.after

theorem Site.Holds.mem {site : Site} {doc : Document} {id : NodeId} (h : site.Holds doc id) :
    id ∈ doc.kids site.host := by
  rw [h]
  exact List.mem_append_right _ (List.mem_cons_self ..)

namespace Item

variable {doc doc₀ : Document} {item : Item}

/-! ### Where the source is sought -/

/-- A source that is sought from the offset `offset` on begins in none of the places `skip`. -/
structure IsSkipped (doc : Document) (offset : Int) (skip : List NodeId) : Prop where
  first : ∀ c ∈ skip.head?, IsSilent doc offset c
  others : ∀ c ∈ skip.tail, IsSilent doc 0 c

theorem IsSkipped.nil (doc : Document) (offset : Int) : IsSkipped doc offset [] :=
  ⟨fun _ hc => (by cases hc), fun _ hc => absurd hc List.not_mem_nil⟩

theorem IsSkipped.cons {offset : Int} {c : NodeId} {skip : List NodeId}
    (hc : IsSilent doc offset c) (h : IsSkipped doc 0 skip) : IsSkipped doc offset (c :: skip) := by
  refine ⟨fun d hd => Option.some.inj hd ▸ hc, fun d hd => ?_⟩
  cases skip with
  | nil => cases hd
  | cons e skip =>
    rcases List.mem_cons.1 hd with rfl | hd
    · exact h.first d rfl
    · exact h.others d hd

theorem IsSkipped.congr {offset : Int} {skip : List NodeId} (h : IsSkipped doc₀ offset skip)
    (hfind : ∀ c ∈ skip, doc.find? c = doc₀.find? c) : IsSkipped doc offset skip :=
  ⟨fun c hc n hn => h.first c hc n (hfind c (List.mem_of_mem_head? hc) ▸ hn),
    fun c hc n hn => h.others c hc n (hfind c (List.mem_of_mem_tail hc) ▸ hn)⟩

/-- The source begins in none of some places, or in the first one whose text goes on beyond the
offset. -/
theorem exists_skip (places : List NodeId) (h : ∀ c ∈ places, c ∈ doc.ids) (offset : Int) :
    IsSkipped doc offset places ∨ ∃ skip z rest, places = skip ++ Tree.label z :: rest ∧
      IsSkipped doc offset skip ∧ doc.find? z.label = some z ∧ z.isText = true ∧
      offsetAfter skip offset < z.value.length := by
  induction places generalizing offset with
  | nil => exact .inl (.nil doc offset)
  | cons c places ih =>
    obtain ⟨n, hn⟩ := exists_of_mem_ids (h c (List.mem_cons_self ..))
    obtain ⟨-, rfl⟩ := mem_of_find? hn
    by_cases hbegins : n.isText = true ∧ offset < n.value.length
    · exact .inr ⟨[], n, places, rfl, .nil doc offset, hn, hbegins⟩
    · have hsilent : IsSilent doc offset n.label := fun m hm =>
        Option.some.inj (hn.symm.trans hm) ▸ hbegins
      rcases ih (fun d hd => h d (List.mem_cons_of_mem _ hd)) 0 with hskip | hfound
      · exact .inl (hskip.cons hsilent)
      · obtain ⟨skip, z, rest, rfl, hskip, hz, htext, hlt⟩ := hfound
        refine .inr ⟨n.label :: skip, z, rest, rfl, hskip.cons hsilent, hz, htext, ?_⟩
        have hzero : offsetAfter skip 0 = 0 := by simp [offsetAfter]
        rwa [hzero] at hlt

/-! ### A source in strings -/

/-- Where the source of an item stands in strings.  It is sought in `skip` too but begins in
`first`, `offset` characters on, and ends in `last` before the character at `reach`; `init` are the
places from the first one up to the last one. -/
structure Stretch (doc : Document) (item : Item) where
  host : NodeId
  ahead : List NodeId
  skip : List NodeId
  init : List NodeId
  behind : List NodeId
  first : Node
  last : Node
  offset : Nat
  reach : Nat
  kids : doc.kids host = ahead ++ (skip ++ (init ++ last.label :: behind))
  findFirst : doc.find? first.label = some first
  findLast : doc.find? last.label = some last
  head : (init ++ [last.label]).head? = some first.label
  skipped : IsSkipped doc item.start.offset skip
  start : item.start.node = (skip ++ [first.label]).head?
  stop : item.stop.node = some last.label
  startOffset : offsetAfter skip item.start.offset = offset
  stopOffset : item.stop.offset = reach
  /-- A source in one place ends behind its beginning. -/
  within : init = [] → offset ≤ reach
  /-- A source in several places begins in running text. -/
  across : init ≠ [] → first.isText = true ∧ offset < first.value.toList.length

theorem Stretch.host_mem (S : item.Stretch doc) : S.host ∈ doc.ids := by
  refine (mem_ids_of_mem_kids (c := S.last.label) ?_).2
  simp [S.kids]

theorem Stretch.first_eq_last (S : item.Stretch doc) (hinit : S.init = []) : S.first = S.last := by
  have hhead := S.head
  rw [hinit] at hhead
  have hfind := S.findFirst
  rw [← Option.some.inj hhead, S.findLast] at hfind
  exact (Option.some.inj hfind).symm

theorem Stretch.label_first (S : item.Stretch doc) {c : NodeId} {init : List NodeId}
    (hinit : S.init = c :: init) : S.first.label = c := by
  have hhead := S.head
  rw [hinit] at hhead
  exact (Option.some.inj hhead).symm

/-- A source between two locations in siblings stands in some of them. -/
theorem exists_stretch_of_siblings {p : NodeId} {ahead places behind : List NodeId} {last : Node}
    (hkids : doc.kids p = ahead ++ (places ++ last.label :: behind))
    (hlast : doc.find? last.label = some last)
    (hstart : item.start.node = (places ++ [last.label]).head?) (hpos : 0 ≤ item.start.offset)
    (hstop : item.stop.node = some last.label) {reach : Nat} (hreach : item.stop.offset = reach)
    (hle : places = [] → item.start.offset ≤ reach) :
    ∃ S : item.Stretch doc, S.host = p ∧ S.ahead = ahead ∧ S.skip ++ S.init = places ∧
      S.last = last := by
  have hids : ∀ c ∈ places, c ∈ doc.ids := fun c hc => by
    refine (mem_ids_of_mem_kids (p := p) ?_).1
    simp [hkids, hc]
  have hoffset (skip : List NodeId) : offsetAfter skip item.start.offset =
      ((offsetAfter skip item.start.offset).toNat : Int) := by
    rw [offsetAfter]
    split <;> omega
  rcases exists_skip places hids item.start.offset with hskip | hfound
  · refine ⟨⟨p, ahead, places, [], behind, last, last, _, reach, hkids, hlast, hlast, rfl, hskip,
      hstart, hstop, hoffset places, hreach, fun _ => ?_, fun hinit => absurd rfl hinit⟩, rfl, rfl,
      List.append_nil _, rfl⟩
    rw [offsetAfter]
    split
    · rename_i hnil
      have := hle hnil
      omega
    · exact Nat.zero_le _
  · obtain ⟨skip, z, rest, rfl, hskip, hz, htext, hlt⟩ := hfound
    refine ⟨⟨p, ahead, skip, z.label :: rest, behind, z, last, _, reach, ?_, hz, hlast, rfl, hskip,
      ?_, hstop, hoffset skip, hreach, fun hinit => (by cases hinit), fun _ => ⟨htext, ?_⟩⟩, rfl,
      rfl, rfl, rfl⟩
    · rw [hkids, List.append_assoc]
    · rw [hstart]
      cases skip <;> rfl
    · have hlen : z.value.length = z.value.toList.length := rfl
      have := hoffset skip
      omega

/-- What is seen in the strings of a container stands in a stretch of siblings. -/
theorem exists_stretch (h : doc.WellFormed) {o : Extraction} {container : Node}
    (hc : container ∈ doc.nodes) {delims : Delimiters} {x : Sighting}
    (hx : x ∈ delims.find ((o.find container).map Block.string)) {visit : Visit} {source : Source}
    (hitem : visit.itemOf source (o.find container) x = .ok item) :
    Nonempty (item.Stretch doc) := by
  obtain ⟨j, n, m, block, hget, hstring, hxstart, hxstop, hle, hm, -⟩ := exists_block hx
  have hblock := List.mem_of_getElem? hget
  have hne : block ≠ [] := by
    rintro rfl
    simpa [Block.string, Text.isBlankText] using (List.mem_filter.1 hblock).2
  obtain ⟨before, mid, after, y, w, heq, hhead, hstart, hstop, hbefore, -, hmid, -⟩ :=
    Block.exists_ends hne hle hm
  rw [Visit.itemOf, hstring, Text.atIndex?_natCast hget, hxstart, hxstop] at hitem
  simp only [hstart, hstop] at hitem
  obtain rfl := Except.ok.inj hitem
  obtain ⟨p, ahead, behind, hkids⟩ := exists_kids_of_mem_find o h hc hblock
  have hkids' : doc.kids p = (ahead ++ before.map Piece.node) ++
      (mid.map Piece.node ++ w.node :: (after.map Piece.node ++ behind)) := by
    rw [hkids, heq]
    simp
  have hw : w.node ∈ doc.kids p := by simp [hkids']
  obtain ⟨last, hlast⟩ := exists_of_mem_ids (mem_ids_of_mem_kids hw).1
  obtain ⟨-, hlabel⟩ := mem_of_find? hlast
  rw [← hlabel] at hlast hkids'
  refine Exists.nonempty (exists_stretch_of_siblings hkids' hlast ?_ (by simp only; omega)
    (congrArg some hlabel.symm) (Int.ofNat_sub hmid).symm fun hnil => ?_)
  · have hmap := congrArg (Option.map Piece.node) hhead
    rw [← List.head?_map, List.map_append] at hmap
    rw [hlabel]
    exact hmap.symm
  · rw [List.map_eq_nil_iff.1 hnil, List.append_nil] at hmid ⊢
    simp only
    omega

/-- An item stands in a document as it is discovered there. -/
inductive Stands (doc : Document) (item : Item) : Prop
  | element {m p : NodeId} (reads : item.source.readsStrings = false) (math : item.math = .node m)
      (start : item.start = ⟨some m, 0, item.start.delimiter⟩)
      (stop : item.stop = ⟨some m, 0, item.stop.delimiter⟩) (host : m ∈ doc.kids p)
  | strings {s : String} (reads : item.source.readsStrings = true) (math : item.math = .text s)
      (S : item.Stretch doc)

/-- Items for TeX and for MathML stand where they are discovered. -/
theorem discover_stands (h : doc.WellFormed) {o : Extraction} {containers : List NodeId}
    {sources : List Source} {survey : Survey}
    (hrun : discover doc o containers sources [] = .ok survey) (hitem : item ∈ survey.items)
    (hformat : item.source.IsTex ∨ item.source.format = .mathml) : item.Stands doc := by
  obtain ⟨found, hfound, hitems⟩ := discover_found hrun
  rw [hitems] at hitem
  obtain ⟨i, id, container, -, hfind, source, -, own, hown, hmem⟩ :=
    exists_of_mem_itemsFrom hfound ((sortByKey_isStableSort _).perm.mem_iff.1 hitem)
  have hc := (mem_of_find? hfind).1
  rw [Source.itemsIn] at hown
  split at hown
  · rename_i hreads
    obtain ⟨x, hx, hmade⟩ := mem_of_mapM_eq_ok hown item hmem
    obtain ⟨rfl, hmath⟩ : item.source = source ∧ item.math = .text x.math := by
      rw [Visit.itemOf] at hmade
      split at hmade <;> cases hmade
      exact ⟨rfl, rfl⟩
    rcases hformat with ⟨delims, dialect, limit, hformat⟩ | hformat
    · rw [Source.sightings, hformat] at hx
      exact (exists_stretch h hc hx hmade).elim (.strings hreads hmath)
    · simp [Source.readsStrings, hformat] at hreads
  · rename_i hreads
    cases hown
    obtain ⟨spot, hspot, rfl⟩ := List.mem_map.1 hmem
    rcases hformat with ⟨delims, dialect, limit, hformat⟩ | hformat
    · have hformat : source.format = .tex delims dialect limit := hformat
      simp [Source.readsStrings, hformat] at hreads
    · have hformat : source.format = .mathml := hformat
      simp only [Source.spots, hformat] at hspot
      rw [Source.elements_eq h hc, List.map_map] at hspot
      obtain ⟨n, hn, rfl⟩ := List.mem_map.1 hspot
      obtain ⟨p, hp⟩ := exists_host_of_mem_mathAmong h hc hn
      exact .element (Bool.eq_false_iff.2 hreads) rfl rfl rfl hp

/-! ### A source while other ones give way

What comes after a source may change before its turn comes: other children stand behind it, and of
its last place only the beginning may be left. -/

/-- The source stands where it stood, with `behind` behind it.  What the replacements lead to from
its last place holds the text of that up to the offset `cut`, if it was cut. -/
structure Stretch.Lasts (S : item.Stretch doc₀) (replaced : List Replacement) (cut : Option Nat)
    (behind : List NodeId) (doc : Document) : Prop where
  kids : doc.kids S.host = S.ahead ++ (S.skip ++ (S.init ++
    Session.current replaced S.last.label :: behind))
  same : ∀ c ∈ S.skip ++ S.init, Session.current replaced c = c ∧ doc.find? c = doc₀.find? c
  last : match cut with
    | none => Session.current replaced S.last.label = S.last.label ∧
        doc.find? S.last.label = some S.last
    | some k => S.reach ≤ k ∧ doc.text? (Session.current replaced S.last.label) =
        some (String.ofList (S.last.value.toList.take k))

theorem Stretch.lasts_of_extends (S : item.Stretch doc₀) (hext : doc₀.Extends doc) :
    S.Lasts [] none S.behind doc where
  kids := (hext.kids S.host_mem).trans S.kids
  same := fun c hc => ⟨rfl, hext.find? (mem_ids_of_mem_kids (p := S.host) (by
    simp only [S.kids, List.mem_append] at hc ⊢
    tauto)).1⟩
  last := ⟨rfl, (hext.find? (mem_ids_of_mem_kids (p := S.host) (by simp [S.kids])).1).trans
    S.findLast⟩

namespace Stretch.Lasts

variable {S : item.Stretch doc₀} {replaced : List Replacement} {cut : Option Nat}
  {behind : List NodeId}

theorem exists_last (L : S.Lasts replaced cut behind doc) :
    ∃ w : Node, w.label = Session.current replaced S.last.label ∧ doc.find? w.label = some w ∧
      w.value.toList = S.last.value.toList.take (cut.getD S.last.value.toList.length) ∧
      ∀ n ≤ S.reach, w.value.toList.take n = S.last.value.toList.take n := by
  have hlast := L.last
  cases cut with
  | none =>
    exact ⟨S.last, hlast.1.symm, hlast.2, List.take_length.symm, fun _ _ => rfl⟩
  | some k =>
    refine ⟨.string _ .text _, rfl, find?_of_text? hlast.2, String.toList_ofList, fun n hn => ?_⟩
    rw [Tree.value, String.toList_ofList, List.take_take, Nat.min_eq_left (Nat.le_trans hn hlast.1)]

theorem exists_start (L : S.Lasts replaced cut behind doc) :
    ∃ start, (Session.moved replaced item.start).node = some start ∧ ∀ rest,
      (S.skip ++ Session.current replaced S.first.label :: rest).head? = some start := by
  rw [Session.moved, S.start]
  cases hskip : S.skip with
  | nil => exact ⟨_, rfl, fun _ => rfl⟩
  | cons y skip =>
    have hsame := (L.same y (by simp [hskip])).1
    exact ⟨y, congrArg some hsame, fun _ => rfl⟩

theorem exists_placed (L : S.Lasts replaced cut behind doc) (hdoc : doc.WellFormed) {item' : Item}
    (hreads : item'.source.readsStrings = true)
    (hstart : item'.start = Session.moved replaced item.start)
    (hstop : item'.stop = Session.moved replaced item.stop) {c : NodeId}
    (hcontent : item'.content = some c) (hloose : doc.IsLoose c) (hapart : doc.Apart S.host c) :
    ∃ start doc' rs left right, item'.start.node = some start ∧
      item'.stop.node = some (Session.current replaced S.last.label) ∧
      item'.place doc start (Session.current replaced S.last.label) = .ok (doc', c, rs) ∧
      Placed doc doc' S.host (S.ahead ++ S.skip) behind (Session.current replaced S.first.label)
        (Session.current replaced S.last.label) (S.first.value.toList.take S.offset)
        ((S.last.value.toList.take (cut.getD S.last.value.toList.length)).drop S.reach) c rs left
        right ∧ (S.offset ≠ 0 → left ≠ []) := by
  have hids : ∀ id ∈ S.skip ++ S.init, doc.find? id = doc₀.find? id := fun id hid =>
    (L.same id hid).2
  have hskip : IsSkipped doc item'.start.offset S.skip :=
    hstart ▸ S.skipped.congr fun id hid => hids id (List.mem_append_left _ hid)
  have hoffset : offsetAfter S.skip item'.start.offset = S.offset := hstart ▸ S.startOffset
  have hreach : item'.stop.offset = S.reach := hstop ▸ S.stopOffset
  obtain ⟨start, hnode, hhead⟩ := hstart ▸ L.exists_start
  have hstopnode : item'.stop.node = some (Session.current replaced S.last.label) := by
    rw [hstop, Session.moved, S.stop]
    rfl
  obtain ⟨w, hlabel, hw, hvalue, htake⟩ := L.exists_last
  have hkids := L.kids
  suffices h : ∃ doc' rs left right, item'.place doc start w.label = .ok (doc', c, rs) ∧
      Placed doc doc' S.host (S.ahead ++ S.skip) behind (Session.current replaced S.first.label)
        w.label (S.first.value.toList.take S.offset) (w.value.toList.drop S.reach) c rs left
        right ∧ (S.offset ≠ 0 → left ≠ []) by
    obtain ⟨doc', rs, left, right, h⟩ := h
    rw [hvalue, hlabel] at h
    exact ⟨start, doc', rs, left, right, hnode, hstopnode, h⟩
  rw [← hlabel] at hkids
  cases hinit : S.init with
  | nil =>
    rw [hinit] at hkids
    rw [S.first_eq_last hinit, ← hlabel] at hhead ⊢
    rw [← htake S.offset (S.within hinit)]
    exact place_within hdoc hreads hcontent hloose hapart hkids (hhead _) hskip.first
      hskip.others hw hoffset hreach (S.within hinit)
  | cons z mid =>
    obtain ⟨htext, hlt⟩ := S.across (by rw [hinit]; exact List.cons_ne_nil z mid)
    obtain rfl := S.label_first hinit
    obtain ⟨hcur, hfind⟩ := L.same S.first.label (by simp [hinit])
    rw [hinit] at hkids
    rw [hcur] at hhead ⊢
    exact place_across hdoc hreads hcontent hloose hapart hkids (hhead _) hskip.first
      hskip.others (hfind.trans S.findFirst) htext hw hoffset hreach hlt

end Stretch.Lasts

/-! ### Where the typeset form stands -/

/-- The site is where the source of an item stood in the document `doc₀`.  Around a source in
strings stands what is left of its first place and of its last place in the document `doc`. -/
inductive StoodAt (doc₀ doc : Document) (item : Item) (site : Site) : Prop
  | element {m : NodeId} (math : item.math = .node m) (holds : site.Holds doc₀ m)
  | strings {s : String} {left right : List NodeId} (math : item.math = .text s)
      (S : item.Stretch doc₀)
      (remnantLeft : doc.Remnant left (S.first.value.toList.take S.offset))
      (remnantRight : doc.Remnant right (S.last.value.toList.drop S.reach))
      (site_eq : site = ⟨S.host, S.ahead ++ S.skip ++ left, right ++ S.behind⟩)

theorem StoodAt.host_mem {site : Site} (h : item.StoodAt doc₀ doc site) : site.host ∈ doc₀.ids := by
  cases h with
  | element math holds => exact (mem_ids_of_mem_kids holds.mem).2
  | strings _ S _ _ site_eq => exact site_eq ▸ S.host_mem

theorem StoodAt.apart {site : Site} (h : item.StoodAt doc₀ doc site) (hdoc₀ : doc₀.WellFormed)
    {m : NodeId} (hm : item.math = .node m) : doc₀.Apart site.host m := by
  cases h with
  | @element m' math holds =>
    obtain rfl := Subject.node.inj (math.symm.trans hm)
    exact apart_of_mem_kids hdoc₀ holds.mem
  | strings math =>
    rw [math] at hm
    cases hm

/-- What is left stays as long as texts do. -/
theorem StoodAt.mono {doc' : Document} {site : Site} (h : item.StoodAt doc₀ doc site)
    (htext : ∀ id s, doc.text? id = some s → doc'.text? id = some s) :
    item.StoodAt doc₀ doc' site := by
  have hremnant {ids : List NodeId} {chars : List Char} (hr : doc.Remnant ids chars) :
      doc'.Remnant ids chars :=
    hr.imp_right fun ⟨id, hid, hs⟩ => ⟨id, hid, htext id _ hs⟩
  cases h with
  | element math holds => exact .element math holds
  | strings math S left right site_eq =>
    exact .strings math S (hremnant left) (hremnant right) site_eq

/-- The typeset form of a discovered item takes the place of its source. -/
theorem Stretch.exists_place (S : item.Stretch doc₀) {s : String} (hmath : item.math = .text s)
    (hext : doc₀.Extends doc) {item' : Item} (hreads : item'.source.readsStrings = true)
    (hstart : item'.start = item.start) (hstop : item'.stop = item.stop) {c : NodeId}
    (hcontent : item'.content = some c) (hloose : doc.IsLoose c) (hapart : doc.Apart S.host c) :
    ∃ start doc' replaced site, item.start.node = some start ∧
      item'.place doc start S.last.label = .ok (doc', c, replaced) ∧
      doc.Reshaped doc' site.host (site.before ++ c :: site.after) ∧
      item.StoodAt doc₀ doc' site := by
  have hmoved (l : Location NodeId) : Session.moved [] l = l := by
    rw [Session.moved, show Session.current [] = id from rfl, Option.map_id]
    rfl
  obtain ⟨start, doc', replaced, left, right, hnode, -, hplace, hplaced, -⟩ :=
    (S.lasts_of_extends hext).exists_placed hext.wellFormed hreads
      (hstart.trans (hmoved item.start).symm) (hstop.trans (hmoved item.stop).symm) hcontent hloose
      hapart
  have hright := hplaced.remnantRight
  rw [Option.getD_none, List.take_length] at hright
  exact ⟨start, doc', replaced, ⟨S.host, S.ahead ++ S.skip ++ left, right ++ S.behind⟩,
    hstart ▸ hnode, hplace, hplaced.reshaped,
    .strings hmath S hplaced.remnantLeft hright rfl⟩

/-- The typeset form of a discovered item takes the place of its source, which then stands nowhere
if it is an element. -/
theorem Stands.exists_place (h : item.Stands doc₀) (hext : doc₀.Extends doc) {item' : Item}
    (hmath : item'.math = item.math) (hsource : item'.source = item.source)
    (hstart : item'.start = item.start) (hstop : item'.stop = item.stop) {c : NodeId}
    (hcontent : item'.content = some c) (hloose : doc.IsLoose c)
    (hapart : ∀ p ∈ doc₀.ids, doc.Apart p c) :
    ∃ start stop doc' replaced site, item'.start.node = some start ∧ item'.stop.node = some stop ∧
      item'.place doc start stop = .ok (doc', c, replaced) ∧
      doc.Reshaped doc' site.host (site.before ++ c :: site.after) ∧
      item.StoodAt doc₀ doc' site ∧ ∀ m, item.math = .node m → doc'.IsLoose m := by
  cases h with
  | @element m p reads math start stop host =>
    obtain ⟨before, after, hkids₀⟩ := List.append_of_mem host
    have hp := (mem_ids_of_mem_kids host).2
    have hkids : doc.kids p = before ++ m :: after := (hext.kids hp).trans hkids₀
    have hspelling : item'.spelling? = none := by rw [spelling?, hmath, math]
    have hm : item'.HasSource doc m := by rw [HasSource, hmath, math]
    obtain ⟨doc', hplace, hres⟩ := exists_place_source hext.wellFormed hkids
      (by rw [hsource, reads, hspelling]; rfl) (by rw [hstart, start])
      (by rw [hstop, stop, reach, hspelling]) hm hcontent hloose (hapart p hp)
    refine ⟨m, m, doc', [], ⟨p, before, after⟩, by rw [hstart, start], by rw [hstop, stop], hplace,
      hres, .element math hkids₀, fun m' hm' => ?_⟩
    obtain rfl := Subject.node.inj (math.symm.trans hm')
    refine hres.isLoose_of_exchanged hext.wellFormed hkids fun heq => ?_
    exact (hext.wellFormed.isLoose_iff.1 hloose).2.2 p (by simp [hkids, heq])
  | strings reads math S =>
    obtain ⟨start, doc', replaced, site, hnode, hplace, hres, hstood⟩ := S.exists_place math hext
      (hsource ▸ reads) hstart hstop hcontent hloose (hapart _ S.host_mem)
    refine ⟨start, S.last.label, doc', replaced, site, hstart ▸ hnode, hstop ▸ S.stop, hplace, hres,
      hstood, fun m hm => ?_⟩
    rw [math] at hm
    cases hm

end Item

end Formulary
