import Formulary.Proofs.Discovery.SourceSpelling

/-! # Keys follow positions

The key of an item that is found in strings says where its text begins.  Every offset of a block,
one before it or past it too, is counted from one of its pieces (`Block.exists_anchor`).  A larger
offset is counted from the same piece or from a later one (`Block.Anchor.same_or_before`), and the
pieces of a container come in document order over all its blocks, so keys compare as the positions
do (`Visit.itemOf_key`). -/

namespace Formulary

open Formulary.Tree

/-! ### The piece from which an offset is counted -/

namespace Block

/-- The offset `k` of a block is counted from a piece, as `offset`: from the first piece that
reaches up to it, or, where none does, from the last piece and as what it is in the block. -/
structure Anchor (block : Block) (k : Int) (before : Block) (piece : Piece) (after : Block)
    (offset : Int) : Prop where
  split : block = before ++ piece :: after
  begins : before = [] ∨ (before.chars.length : Int) < k
  place : k ≤ before.chars.length + piece.text.toList.length ∧ offset = k - before.chars.length ∨
    (block.chars.length : Int) < k ∧ after = [] ∧ offset = k

section

variable {block before before' after after' : Block} {piece piece' : Piece}
  {k l offset offset' : Int}

theorem locate_eq_none (h : (block.chars.length : Int) < k) (d : String) :
    locate block.runs k d = ⟨none, 0, d⟩ := by
  induction block generalizing k with
  | nil => rfl
  | cons piece rest ih =>
    rw [chars_cons, List.length_append, Int.natCast_add] at h
    have hlen : piece.text.length = piece.text.toList.length := rfl
    rw [runs, List.map_cons, locate, hlen, if_neg (by simp only; omega)]
    exact ih (by simp only; omega)

theorem locate_node_eq_none (hne : block ≠ []) (d : String) :
    (locate block.runs k d).node = none ↔ (block.chars.length : Int) < k := by
  refine ⟨fun hnone => ?_, fun hlt => by rw [locate_eq_none hlt]⟩
  by_contra hle
  rcases Int.le_total k 0 with hk | hk
  · obtain ⟨piece, rest, rfl⟩ := List.exists_cons_of_ne_nil hne
    rw [runs, List.map_cons, locate, if_pos (by simp only; omega)] at hnone
    cases hnone
  · obtain ⟨n, rfl⟩ := Int.eq_ofNat_of_zero_le hk
    obtain ⟨before, piece, after, -, hlocate, -⟩ := locate_spec block hne (n := n) (by omega)
    rw [hlocate] at hnone
    cases hnone

/-- Every offset is counted from some piece, which says what its key is. -/
theorem exists_anchor (hne : block ≠ []) (k : Int) :
    ∃ before piece after offset, block.Anchor k before piece after offset ∧
      ∀ (visit : Visit) (d : String), visit.stringKey block.runs k (locate block.runs k d) =
        [(visit.index : Int), visit.number piece.node, offset] := by
  rcases Int.le_total k 0 with hk | hk
  · obtain ⟨piece, rest, rfl⟩ := List.exists_cons_of_ne_nil hne
    refine ⟨[], piece, rest, k, ⟨rfl, .inl rfl, .inl ⟨?_, (Int.sub_zero k).symm⟩⟩, fun visit d => ?_⟩
    · simp only [chars_nil, List.length_nil]
      omega
    · rw [runs, List.map_cons, locate, if_pos (by simp only; omega), Visit.stringKey]
  · obtain ⟨n, rfl⟩ := Int.eq_ofNat_of_zero_le hk
    by_cases hle : n ≤ block.chars.length
    · obtain ⟨before, piece, after, hsplit, hlocate, hreach, hbegins⟩ := locate_spec block hne hle
      refine ⟨before, piece, after, n - before.chars.length, ⟨hsplit, ?_, .inl ⟨?_, rfl⟩⟩,
        fun visit d => ?_⟩
      · exact hbegins.imp_right Int.ofNat_lt.2
      · exact_mod_cast hreach
      · rw [hlocate, Visit.stringKey]
    · have hlt : (block.chars.length : Int) < n := by omega
      obtain ⟨before, piece, rfl⟩ := (List.eq_nil_or_concat block).resolve_left hne
      refine ⟨before, piece, [], n, ⟨List.concat_eq_append, ?_, .inr ⟨hlt, rfl, rfl⟩⟩,
        fun visit d => ?_⟩
      · rw [List.concat_eq_append, chars_append, List.length_append] at hlt
        right
        omega
      · rw [locate_eq_none hlt, Visit.stringKey, runs]
        simp

/-- A larger offset is counted from the same piece or from a later one. -/
theorem Anchor.same_or_before (h : block.Anchor k before piece after offset)
    (h' : block.Anchor l before' piece' after' offset') (hle : k ≤ l) :
    (before = before' ∧ piece = piece') ∨ ∃ mid, before' = before ++ piece :: mid := by
  rcases h'.place with ⟨hreach, -⟩ | ⟨-, rfl, -⟩
  · refine located_eq_or_before (n := k.toNat) (m := l.toNat) h.split h'.split (by omega) ?_ (by omega)
    refine h.begins.imp_right fun hlt => by omega
  · -- nothing comes after the last piece
    rcases List.append_eq_append_iff.1 (h.split.symm.trans h'.split) with
      ⟨mid, hmid, heq⟩ | ⟨mid, hmid, heq⟩
    · cases mid with
      | nil => exact .inl ⟨by simpa using hmid.symm, (List.cons.inj heq).1⟩
      | cons c mid =>
        obtain rfl := (List.cons.inj heq).1
        exact .inr ⟨mid, hmid⟩
    · cases mid with
      | nil => exact .inl ⟨by simpa using hmid, (List.cons.inj heq).1.symm⟩
      | cons c mid => simp at heq

theorem Anchor.offset_lt (h : block.Anchor k before piece after offset)
    (h' : block.Anchor l before piece after' offset') (hlt : k < l) : offset < offset' := by
  have hlen : (before.chars.length + piece.text.toList.length : Int) ≤ block.chars.length := by
    rw [h.split, chars_append, chars_cons, List.length_append, List.length_append]
    omega
  rcases h.place with ⟨-, rfl⟩ | ⟨hpast, -, rfl⟩ <;> rcases h'.place with ⟨hreach, rfl⟩ | ⟨-, -, rfl⟩ <;>
    omega

end

end Block

/-! ### Keys of items -/

section

variable {o : Extraction} {container : Node}

theorem Extraction.ne_nil_of_mem_find {block : Block} (h : block ∈ o.find container) :
    block ≠ [] := by
  rintro rfl
  simpa [Block.string, Text.isBlankText] using (List.mem_filter.1 h).2

theorem Visit.stringKey_eq (visit : Visit) {i j : Nat} {block block' : Block}
    (hb : (o.find container)[i]? = some block) (hb' : (o.find container)[j]? = some block')
    {k l : Int} (d d' : String) (h : i = j ∧ k = l) :
    visit.stringKey block.runs k (Formulary.locate block.runs k d) =
      visit.stringKey block'.runs l (Formulary.locate block'.runs l d') := by
  obtain ⟨rfl, rfl⟩ := h
  obtain rfl := Option.some.inj (hb.symm.trans hb')
  obtain ⟨_, _, _, _, -, hkey⟩ :=
    Block.exists_anchor (Extraction.ne_nil_of_mem_find (List.mem_of_getElem? hb)) k
  rw [hkey visit d, hkey visit d']

/-- The key of an offset is smaller than that of a larger one in its block and than those of all
offsets in later blocks. -/
theorem Visit.stringKey_lt (hlabels : container.labels.Nodup) {visit : Visit}
    (hv : visit.container = container) {i j : Nat} {block block' : Block}
    (hb : (o.find container)[i]? = some block) (hb' : (o.find container)[j]? = some block')
    {k l : Int} (d d' : String) (hlt : i < j ∨ i = j ∧ k < l) :
    visit.stringKey block.runs k (Formulary.locate block.runs k d) <
      visit.stringKey block'.runs l (Formulary.locate block'.runs l d') := by
  obtain ⟨hwithin, hacross⟩ := List.pairwise_flatten.1 (find_pairwise_precedes o hlabels)
  obtain ⟨before, c, after, offset, hanchor, hkey⟩ :=
    Block.exists_anchor (Extraction.ne_nil_of_mem_find (List.mem_of_getElem? hb)) k
  obtain ⟨before', c', after', offset', hanchor', hkey'⟩ :=
    Block.exists_anchor (Extraction.ne_nil_of_mem_find (List.mem_of_getElem? hb')) l
  have hnumber : Piece.Precedes container c c' → visit.number c.node < visit.number c'.node := by
    intro hprecedes
    rw [number, number, hv]
    exact Int.ofNat_lt.2 hprecedes
  rw [hkey, hkey', Key.triple_lt]
  rcases hlt with hlt | ⟨rfl, hlt⟩
  · obtain ⟨hi, rfl⟩ := List.getElem?_eq_some_iff.1 hb
    obtain ⟨hj, rfl⟩ := List.getElem?_eq_some_iff.1 hb'
    refine .inl (hnumber (List.pairwise_iff_getElem.1 hacross _ _ hi hj hlt c ?_ c' ?_))
    · rw [hanchor.split]
      exact List.mem_append_right _ (List.mem_cons_self ..)
    · rw [hanchor'.split]
      exact List.mem_append_right _ (List.mem_cons_self ..)
  · obtain rfl : block = block' := Option.some.inj (hb.symm.trans hb')
    rcases hanchor.same_or_before hanchor' (Int.le_of_lt hlt) with ⟨rfl, rfl⟩ | ⟨mid, rfl⟩
    · exact .inr ⟨rfl, hanchor.offset_lt hanchor' hlt⟩
    · have hpieces := hanchor'.split ▸ hwithin _ (List.mem_of_getElem? hb)
      exact .inl (hnumber ((List.pairwise_append.1 hpieces).2.2 c (by simp) c' (by simp)))

end

/-- The keys of items that are found in the strings of one container compare as the positions in
which the items begin: by the string and then by the offset, whatever the offset is.  So a start
that has no place comes after all of its string that have one, and before all of later strings. -/
theorem Visit.itemOf_key (o : Extraction) (container : Node) (hlabels : container.labels.Nodup)
    (visit visit' : Visit) (hv : visit.container = container) (hv' : visit'.container = container)
    (hindex : visit.index = visit'.index) (source source' : Source) (x y : Sighting)
    (hx : 0 ≤ x.string ∧ x.string < (o.find container).length)
    (hy : 0 ≤ y.string ∧ y.string < (o.find container).length) :
    ∃ item item', visit.itemOf source (o.find container) x = .ok item ∧
      visit'.itemOf source' (o.find container) y = .ok item' ∧
      (item.key < item'.key ↔ x.string < y.string ∨ x.string = y.string ∧ x.start < y.start) ∧
      (item.key = item'.key ↔ x.string = y.string ∧ x.start = y.start) ∧
      (item.start.node = none →
        (x.string = y.string → item'.start.node ≠ none → item'.key < item.key) ∧
        (x.string < y.string → item.key < item'.key)) := by
  obtain ⟨i, hi⟩ := Int.eq_ofNat_of_zero_le hx.1
  obtain ⟨j, hj⟩ := Int.eq_ofNat_of_zero_le hy.1
  have hb := List.getElem?_eq_getElem (l := o.find container) (i := i) (by omega)
  have hb' := List.getElem?_eq_getElem (l := o.find container) (i := j) (by omega)
  have hsame : visit'.stringKey = visit.stringKey := by
    funext runs k location
    simp only [stringKey, number, hv, hv', hindex]
  rw [itemOf, itemOf, hi, hj, Text.atIndex?_natCast hb, Text.atIndex?_natCast hb', hsame]
  -- in each of the three ways in which the positions can stand, the keys stand alike
  have hlt := fun h => stringKey_lt hlabels hv hb hb' (k := x.start) (l := y.start) x.opener y.opener h
  have hgt := fun h => stringKey_lt hlabels hv hb' hb (k := y.start) (l := x.start) y.opener x.opener h
  have heq := fun h => visit.stringKey_eq hb hb' (k := x.start) (l := y.start) x.opener y.opener h
  have hthree : (i < j ∨ i = j ∧ x.start < y.start) ∨ (i = j ∧ x.start = y.start) ∨
      (j < i ∨ j = i ∧ y.start < x.start) := by omega
  obtain ⟨hkeylt, hkeyeq⟩ := Key.trichotomy hthree hlt heq hgt
  refine ⟨_, _, rfl, rfl, hkeylt.trans (by omega), hkeyeq.trans (by omega),
    fun hnone => ⟨fun hstring hsome => hgt ?_, fun hstring => hlt (by omega)⟩⟩
  obtain rfl : i = j := by omega
  have hblock := Extraction.ne_nil_of_mem_find (List.mem_of_getElem? hb)
  have hpast := (Block.locate_node_eq_none hblock x.opener).1 hnone
  have hinside := mt (Block.locate_node_eq_none hblock y.opener).2 hsome
  omega

/-- Two paragraphs, each with one string.  An offset far past the first string is of an earlier
position than an offset before the second one. -/
def twoParagraphs : Node :=
  .element 0 "div" [] [.element 1 "p" [] [.string 2 .text "one"],
    .element 3 "p" [] [.string 4 .text "two"]]

theorem Visit.itemOf_key_twoParagraphs : ∃ item item',
    ({ index := 3, container := twoParagraphs, items := [] } : Visit).itemOf .tex
      (({} : Extraction).find twoParagraphs) ⟨"a", "$", "$", 0, 100, 120, false⟩ = .ok item ∧
    ({ index := 3, container := twoParagraphs, items := [] } : Visit).itemOf .mathml
      (({} : Extraction).find twoParagraphs) ⟨"b", "", "", 1, -5, 2, true⟩ = .ok item' ∧
    item.start.node = none ∧ item.key < item'.key := by
  obtain ⟨item, item', hitem, hitem', hlt, -, -⟩ := Visit.itemOf_key {} twoParagraphs (by decide)
    { index := 3, container := twoParagraphs, items := [] }
    { index := 3, container := twoParagraphs, items := [] } rfl rfl rfl .tex .mathml
    ⟨"a", "$", "$", 0, 100, 120, false⟩ ⟨"b", "", "", 1, -5, 2, true⟩ (by decide) (by decide)
  refine ⟨item, item', hitem, hitem', ?_, hlt.2 (.inl (by decide))⟩
  cases hitem
  rfl

end Formulary
