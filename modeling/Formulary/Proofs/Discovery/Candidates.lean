import Formulary.Proofs.Delimiters.Search
import Formulary.Proofs.Discovery.Elements
import Formulary.Proofs.Update.WholeUpdate

/-! # What there is to find

A session finds mathematics in the running text of its container and among the elements in it.
The blocks of the text are laid out in the document (`layout_find`), an element that is found is
in no block (`isElement_of_mem_mathAmong`), and what is seen in the blocks is a source in the
sense of an update (`isSource_of_mem_find`).

Only strings are called running text in a document that has been read (`Document.IsPlain`).  For a
search it is enough that this holds in the tree it is made in (`Tree.IsReadable`). -/

namespace Formulary

open Formulary.Tree Document

/-- Only strings are running text: no element has the name of it. -/
def Document.IsPlain (doc : Document) : Prop :=
  ∀ n ∈ doc.nodes, n.isText = true → n.isElement = false

/-- Only strings are running text in a tree. -/
def Tree.IsReadable (t : Node) : Prop := ∀ n ∈ t.subtrees, n.isText = true → n.isElement = false

theorem Document.IsPlain.isReadable {doc : Document} (hplain : doc.IsPlain) {t : Node}
    (ht : t ∈ doc.nodes) : t.IsReadable := fun n hn => hplain n (subtreesAll_trans hn ht)

theorem Tree.IsReadable.subtree {s t : Node} (h : t.IsReadable) (hs : s ∈ t.subtrees) :
    s.IsReadable := fun n hn => h n (subtrees_trans hn hs)

/-! ### Blocks -/

section

variable {doc : Document} {container : Node} {blocks : List Block}

theorem text?_of_isText (h : doc.WellFormed) {n : Node} (hn : n ∈ doc.nodes)
    (htext : n.isText = true) (helement : n.isElement = false) :
    doc.text? n.label = some n.value := by
  have hshell := h.shell?_label hn
  cases n with
  | element => cases helement
  | string label kind value =>
    have hkind : kind.name = StringKind.text.name := of_decide_eq_true htext
    have : kind = .text := by
      revert hkind
      cases kind <;> decide
    subst this
    exact text?_eq_some.2 hshell

theorem isMute_of_isText (h : doc.WellFormed) {n : Node} (hn : n ∈ doc.nodes)
    (htext : n.isText = false) : doc.IsMute n.label := by
  refine ⟨n.shell, h.shell?_label hn, ?_⟩
  cases n with
  | string => exact htext
  | element => exact htext

theorem mem_of_get? {α : Type} {fields : Fields α} {name : String} {content : α}
    (h : fields.get? name = some content) : (name, content) ∈ fields := by
  induction fields with
  | nil => cases h
  | cons pair rest ih =>
    obtain ⟨other, old⟩ := pair
    rw [Fields.get?] at h
    split at h
    · rename_i heq
      cases h
      exact heq ▸ List.mem_cons_self ..
    · exact List.mem_cons_of_mem _ (ih h)

/-- What is read as text of its own: line breaks, and nothing. -/
theorem included_text {tag text : String}
    (h : ({} : Extraction).included.get? tag = some text) :
    tag ≠ "math" ∧ (text.toList = [] ∨ text.toList = ['\n']) := by
  have hmem : (tag, text) ∈ [("br", "\n"), ("wbr", ""), ("#comment", "")] := mem_of_get? h
  simp only [List.mem_cons, Prod.mk.injEq, List.not_mem_nil, or_false] at hmem
  rcases hmem with ⟨rfl, rfl⟩ | ⟨rfl, rfl⟩ | ⟨rfl, rfl⟩
  · exact ⟨by decide, .inr rfl⟩
  · exact ⟨by decide, .inl rfl⟩
  · exact ⟨by decide, .inl rfl⟩

theorem exists_of_mem_find {c : Piece} (h : c ∈ (({} : Extraction).find container).flatten) :
    ∃ n ∈ container.subtrees, ({} : Extraction).piece? n = some c := by
  obtain ⟨block, hblock, hmem⟩ := List.mem_flatten.1 h
  obtain ⟨host, hhost, before, nodes, after, hkids, hnodes⟩ := Extraction.exists_host hblock
  have hpiece : some c ∈ nodes.map ({} : Extraction).piece? := hnodes ▸ List.mem_map_of_mem hmem
  obtain ⟨n, hn, heq⟩ := List.mem_map.1 hpiece
  refine ⟨n, subtrees_trans (mem_subtrees_of_child ?_ n.self_mem_subtrees) hhost, heq⟩
  simp [hkids, hn]

/-- The places of a block of a container stand next to each other among the children of a place. -/
theorem exists_kids_of_mem_find (o : Extraction) (h : doc.WellFormed) (hc : container ∈ doc.nodes)
    {block : Block} (hblock : block ∈ o.find container) :
    ∃ p before after, doc.kids p = before ++ block.map Piece.node ++ after := by
  obtain ⟨host, hhost, before, nodes, after, hkids, hnodes⟩ := Extraction.exists_host hblock
  have hlabels := Extraction.map_label_of_map_piece? hnodes
  refine ⟨host.label, before.map label, after.map label, ?_⟩
  rw [h.kids_label (subtreesAll_trans hhost hc), hkids, List.map_append, List.map_append, hlabels]

/-- The blocks of a container that can be read are laid out in the document. -/
theorem Tree.IsReadable.layout_find (hread : container.IsReadable) (h : doc.WellFormed)
    (hc : container ∈ doc.nodes) : Layout doc (({} : Extraction).find container) where
  host := fun block hblock => exists_kids_of_mem_find {} h hc hblock
  distinct := by
    have hnodup := nodup_below h.distinct hc
    rw [labels, subtrees_eq, List.map_cons, List.nodup_cons] at hnodup
    exact hnodup.2.sublist (Extraction.find_sublist _ container)
  said := fun c hmem => by
    obtain ⟨n, hn, hpiece⟩ := exists_of_mem_find hmem
    have hin : n ∈ doc.nodes := subtreesAll_trans hn hc
    rw [Extraction.piece?] at hpiece
    split at hpiece
    · rename_i htext
      cases hpiece
      exact .inl (text?_of_isText h hin htext (hread n hn htext))
    · rename_i htext
      obtain ⟨text, hget, rfl⟩ := Option.map_eq_some_iff.1 hpiece
      exact .inr ⟨isMute_of_isText h hin (Bool.not_eq_true _ ▸ htext), (included_text hget).2⟩

/-- The blocks of a container are laid out in a document in which only strings are running text. -/
theorem layout_find (h : doc.WellFormed) (hplain : doc.IsPlain) (hc : container ∈ doc.nodes) :
    Layout doc (({} : Extraction).find container) :=
  (hplain.isReadable hc).layout_find h hc

/-! ### Elements -/

/-- What an element that is found is in the document. -/
structure IsElement (doc : Document) (blocks : List Block) (m : NodeId) : Prop where
  outside : m ∉ blocks.flatten.map Piece.node
  host : ∃ p, m ∈ doc.kids p

theorem piece?_of_kind_eq {n : Node} (h : n.kind = "math") : ({} : Extraction).piece? n = none := by
  have htext : ¬n.isText = true := by
    rw [isText, h]
    decide
  rw [Extraction.piece?, if_neg htext, h]
  rfl

theorem piece?_of_mem_mathAmong {n : Node} {ts : List Node} (h : n ∈ Source.mathAmong ts) :
    ({} : Extraction).piece? n = none :=
  piece?_of_kind_eq (Source.kind_of_mem_mathAmong h).1

theorem exists_host_of_mem_mathAmong (h : doc.WellFormed) (hc : container ∈ doc.nodes) {n : Node}
    (hn : n ∈ Source.mathAmong container.children) : ∃ p, n.label ∈ doc.kids p := by
  rcases mem_or_exists_parent ((Source.mathAmong_sublist _).subset hn) with hchild | ⟨p, hp, hchild⟩
  · exact ⟨container.label, h.kids_label hc ▸ List.mem_map_of_mem hchild⟩
  · have hp' : p ∈ doc.nodes := mem_subtreesAll_of_below hp hc
    exact ⟨p.label, h.kids_label hp' ▸ List.mem_map_of_mem hchild⟩

theorem isElement_of_mem_mathAmong (h : doc.WellFormed) (hc : container ∈ doc.nodes) {n : Node}
    (hn : n ∈ Source.mathAmong container.children) :
    IsElement doc (({} : Extraction).find container) n.label := by
  refine ⟨fun hpiece => ?_, exists_host_of_mem_mathAmong h hc hn⟩
  obtain ⟨c, hc', heq⟩ := List.mem_map.1 hpiece
  obtain ⟨n', hn', hpiece'⟩ := exists_of_mem_find hc'
  replace hn' := subtreesAll_trans hn' hc
  have hlabel := (Extraction.piece?_node hpiece').symm.trans heq
  have hn₀ := mem_subtreesAll_of_below ((Source.mathAmong_sublist _).subset hn) hc
  obtain rfl := eq_of_label_eq h.distinct hn' hn₀ hlabel
  rw [piece?_of_mem_mathAmong hn] at hpiece'
  cases hpiece'

/-! ### Sightings -/

/-- The stretch of a sighting, which gives way to `root`. -/
def Sighting.insertion (x : Sighting) (root : NodeId) : Insertion :=
  ⟨x.string.toNat, x.start.toNat, x.stop.toNat, root⟩

theorem getElem?_of_append {before spelling after : List Char} {i : Nat} (h : i < spelling.length) :
    (before ++ spelling ++ after)[before.length + i]? = spelling[i]? := by
  rw [List.append_assoc, List.getElem?_append_right (Nat.le_add_right _ _), Nat.add_sub_cancel_left,
    List.getElem?_append_left h]

/-- What is seen in blocks is the source of an item. -/
theorem isSource_of_mem_find {x : Sighting}
    (h : x ∈ Delimiters.find {} (blocks.map Block.string)) (root : NodeId) :
    (x.string = (x.insertion root).string ∧ x.start = (x.insertion root).start ∧
      x.stop = (x.insertion root).stop) ∧
    ∃ block, IsSource blocks block (x.insertion root) := by
  obtain ⟨j, s, hget, hfound, hstring, before, after, hs, hstart, hstop⟩ := Delimiters.find_spec h
  rw [List.getElem?_map] at hget
  obtain ⟨block, hblock, rfl⟩ := Option.map_eq_some_iff.1 hget
  rw [Block.string_toList] at hs
  obtain ⟨hfirst, d, hd, hlast⟩ := Delimiters.findFrom_ends hfound
  have hpos : 0 < x.spelling.length := by
    rw [List.length_pos_iff]
    rintro hnil
    rw [hnil] at hlast
    cases hlast
  have hj : x.string.toNat = j := by rw [hstring, Int.toNat_natCast]
  have hb : x.start.toNat = before.length := by omega
  have he : x.stop.toNat = before.length + x.spelling.length := by omega
  refine ⟨⟨?_, ?_, ?_⟩, block, ?_, ?_, ?_, ?_, ?_⟩
  · exact (hstring.trans (congrArg Int.ofNat hj.symm))
  · exact show x.start = (x.start.toNat : Int) by omega
  · exact show x.stop = (x.stop.toNat : Int) by omega
  · exact (congrArg (blocks[·]?) hj).trans hblock
  · exact show x.start.toNat < x.stop.toNat by omega
  · rw [hs, List.length_append, List.length_append]
    exact show x.stop.toNat ≤ _ by omega
  · have hget := @getElem?_of_append before _ after _ hpos
    rw [← hs, Nat.add_zero, ← hb, ← List.head?_eq_getElem?] at hget
    rcases hfirst with hfirst | hfirst
    · exact ⟨_, hget.trans hfirst, by decide⟩
    · exact ⟨_, hget.trans hfirst, by decide⟩
  · have hget := @getElem?_of_append before _ after _
      (Nat.sub_lt hpos Nat.one_pos)
    rw [← hs, ← List.getLast?_eq_getElem?, hlast] at hget
    refine ⟨d, ?_, ?_⟩
    · rw [← hget]
      congr 1
      exact show x.stop.toNat - 1 = _ by omega
    · rintro rfl
      revert hd
      decide

/-- What is seen in blocks has a length, and none of its offsets is below nought. -/
theorem offsets_of_mem_find {x : Sighting}
    (h : x ∈ Delimiters.find {} (blocks.map Block.string)) :
    x.string = (x.string.toNat : Int) ∧ x.start = (x.start.toNat : Int) ∧
      x.stop = (x.stop.toNat : Int) ∧ x.start.toNat < x.stop.toNat := by
  obtain ⟨⟨hstring, hstart, hstop⟩, _, hsource⟩ := isSource_of_mem_find h 0
  exact ⟨hstring, hstart, hstop, hsource.lt⟩

end

end Formulary
