import Formulary.Proofs.Restoration.SettledSession
import Formulary.Proofs.Search.CutText
import Formulary.Proofs.Search.HiddenPlaces

/-! # What has given way in a rendered session

The stretches that have given way to typeset forms are those of the sightings that can be read
(`Session.Rendered.cuts_map`), and the elements are those that were found.  So a piece of a block is
told by what the stretches have left of its text (`tellOf`), and a block by what they have left of
its own (`flatMap_tellOf`). -/

namespace Formulary

open Formulary.Tree Document Insertion

/-! ### The wording of an item -/

@[simp] theorem locate_delimiter {α : Type} (runs : List (Run α)) (index : Int)
    (delimiter : String) : (locate runs index delimiter).delimiter = delimiter := by
  induction runs generalizing index with
  | nil => rfl
  | cons run rest ih =>
    rw [locate]
    split
    · rfl
    · exact ih _

/-- What an item is, wherever it stands: its mathematics, its delimiters, and whether it is set
apart. -/
def Item.wording (item : Item) : Subject × String × String × Bool :=
  (item.math, item.start.delimiter, item.stop.delimiter, item.display)

/-- The wording of the item of a find. -/
def Find.wording : Find → Subject × String × String × Bool
  | sighting x => (.text x.math, x.opener, x.closer, x.display)
  | element m display => (.node m, "", "", display)

theorem Find.wording_item (container : Node) (blocks : List Block) (f : Find) :
    (f.item container blocks).wording = f.wording := by
  cases f with
  | sighting x => simp [item, Item.wording, wording]
  | element m display => rfl

/-! ### Sightings among finds -/

/-- The sighting of a find. -/
def Find.sighting? : Find → Option Sighting
  | sighting x => some x
  | element _ _ => none

theorem Delimiters.filter_find_of_le {strings : List String} {i j : Nat} (hlt : j < i) :
    ((strings.zipIdx i).flatMap fun (s, k) => findFrom {} k 0 s.toList).filter
      (fun x => x.string.toNat = j) = [] := by
  refine List.filter_eq_nil_iff.2 fun x hx => ?_
  obtain ⟨⟨s, k⟩, hs, hx⟩ := List.mem_flatMap.1 hx
  have hle := List.le_snd_of_mem_zipIdx hs
  have hstring := (findFrom_spec x hx).1
  simp only [hstring, Int.toNat_natCast, decide_eq_true_eq]
  dsimp only at hle
  omega

theorem Delimiters.filter_find {strings : List String} {j : Nat} {s : String}
    (h : strings[j]? = some s) :
    (find {} strings).filter (fun x => x.string.toNat = j) = findFrom {} j 0 s.toList := by
  have key : ∀ (rest : List String) (i n : Nat), rest[n]? = some s →
      ((rest.zipIdx i).flatMap fun (s, k) => findFrom {} k 0 s.toList).filter
        (fun x => x.string.toNat = i + n) = findFrom {} (i + n) 0 s.toList := by
    intro rest
    induction rest with
    | nil => simp
    | cons t rest ih =>
      intro i n hn
      rw [List.zipIdx_cons, List.flatMap_cons, List.filter_append]
      cases n with
      | zero =>
        obtain rfl : t = s := by simpa using hn
        rw [Nat.add_zero, filter_find_of_le (by omega), List.append_nil]
        refine List.filter_eq_self.2 fun x hx => ?_
        simp [(findFrom_spec x hx).1]
      | succ n =>
        have hother : (findFrom {} i 0 t.toList).filter (fun x => x.string.toNat = i + (n + 1)) =
            [] := List.filter_eq_nil_iff.2 fun x hx => by
          simp [(findFrom_spec x hx).1]
        rw [hother, List.nil_append, show i + (n + 1) = i + 1 + n by omega]
        exact ih (i + 1) n (by simpa using hn)
  simpa [find] using key strings 0 j h

section

variable {container : Node} {blocks : List Block} {sources : List Source} {finds : List Find}

theorem IsSurvey.sightings (h : IsSurvey container blocks sources finds)
    (hs : Source.AreUsual sources) (hpieces : blocks.flatten.Pairwise (Piece.Precedes container)) :
    finds.filterMap Find.sighting? =
      Delimiters.find {} ((blocksRead sources blocks).map Block.string) := by
  have hsome : ∀ xs : List Sighting, (xs.map Find.sighting).filterMap Find.sighting? = xs :=
    fun xs => by
      rw [List.filterMap_map]
      exact List.filterMap_some
  have hnone : ∀ (es : List (NodeId × Bool)) (found : NodeId × Bool → Find),
      (∀ e, (found e).sighting? = none) → (es.map found).filterMap Find.sighting? = [] :=
    fun es found hfound => by
      rw [List.filterMap_map]
      exact List.filterMap_eq_nil_iff.2 fun e _ => hfound e
  have hperm := (h.perm.trans (findsOf_perm hs container blocks)).filterMap Find.sighting?
  rw [List.filterMap_append, hsome, hnone _ _ fun _ => rfl, List.append_nil] at hperm
  have hsorted : KeySorted (fun x => Find.key container blocks (.sighting x))
      (finds.filterMap Find.sighting?) := by
    refine List.pairwise_filterMap.2 (h.sorted.imp fun {f g} hlt x hx y hy => ?_)
    cases f with
    | sighting x' =>
      cases g with
      | sighting y' =>
        obtain rfl : x' = x := Option.some.inj hx
        obtain rfl : y' = y := Option.some.inj hy
        exact hlt
      | element => cases hy
    | element => cases hx
  refine hsorted.eq_of_perm ?_ hperm
  rw [blocksRead]
  split
  · exact (List.pairwise_map (R := fun f g => Find.key container blocks f < _)).1
      (find_keySorted hpieces)
  · exact .nil

theorem insertions_map {kept : List Find} {added : List Node} (h : added.length = kept.length) :
    (Target.insertions (List.zipWith (fun (f : Find) (t : Node) => f.target t.label) kept
      added)).map (fun x => (x.string, x.start, x.stop)) =
        (kept.filterMap Find.sighting?).map fun x => (x.string.toNat, x.stretch) := by
  induction kept generalizing added with
  | nil => rfl
  | cons f rest ih =>
    cases added with
    | nil => cases h
    | cons t added =>
      have hrest := ih (Nat.succ.inj h)
      cases f with
      | sighting x => exact congrArg (_ :: ·) hrest
      | element m display => exact hrest

theorem filterMap_sighting?_filter (finds : List Find) :
    (finds.filter Find.isRead).filterMap Find.sighting? =
      (finds.filterMap Find.sighting?).filter fun x => x.error?.isNone := by
  rw [List.filterMap_filter, List.filter_filterMap]
  refine List.filterMap_congr fun f _ => ?_
  cases f with
  | sighting x =>
    simp [Find.isRead, Find.error?, Find.sighting?, Option.filter_some]

  | element m display => simp [Find.sighting?]

end

/-- What some sources see in blocks and can read. -/
def sightingsRead (sources : List Source) (blocks : List Block) : List Sighting :=
  (Delimiters.find {} ((blocksRead sources blocks).map Block.string)).filter fun x =>
    x.error?.isNone

/-- Whether the offset `i` of the string `j` is strictly inside a sighting. -/
def Sighting.surrounds (x : Sighting) (j i : Nat) : Bool :=
  x.string.toNat = j && x.start.toNat < i && i < x.stop.toNat

/-- Whether a place is strictly inside one of some sightings and is not running text. -/
def Document.isEnclosed (doc : Document) (blocks : List Block) (read : List Sighting)
    (id : NodeId) : Bool :=
  (doc.text? id).isNone && (occurrences blocks).any fun u =>
    u.piece.node = id && read.any fun x => x.surrounds u.string u.offset

namespace Session.Rendered

variable {s s' : Session} (D : s.Rendered s')

/-- The stretches that have given way to typeset forms. -/
def cuts : List Insertion := Target.insertions (targetsOf D.finds D.added)

/-- What has taken the place of an element. -/
def swap : NodeId → NodeId := Target.swap (targetsOf D.finds D.added)

/-- The sightings that can be read. -/
def read : List Sighting := sightingsRead s.sources D.blocks

theorem mem_nodes : D.container ∈ s.document.nodes := (mem_of_find? D.body).1

section

variable (h : s.document.WellFormed)

include h

theorem nodup_labels : D.container.labels.Nodup := nodup_below h.distinct D.mem_nodes

theorem pairwise_pieces : D.blocks.flatten.Pairwise (Piece.Precedes D.container) :=
  D.blocks_eq ▸ find_pairwise_precedes {} (D.nodup_labels h)

theorem layout (hplain : s.document.IsPlain) : Layout s.document D.blocks :=
  D.blocks_eq ▸ layout_find h hplain D.mem_nodes

variable (hs : Source.AreUsual s.sources)

include hs

theorem pairwise_targets : (targetsOf D.finds D.added).Pairwise Target.Precedes :=
  targetsOf_pairwise hs (D.pairwise_pieces h) D.survey D.added

theorem pairwise_cuts : D.cuts.Pairwise fun x y => y.string = x.string → x.stop ≤ y.start :=
  Target.insertions_pairwise (D.pairwise_targets h hs)

/-- The stretches are those of the sightings that can be read. -/
theorem cuts_map : D.cuts.map (fun x => (x.string, x.start, x.stop)) =
    D.read.map fun x => (x.string.toNat, x.stretch) := by
  rw [cuts, read, sightingsRead, targetsOf, insertions_map D.length, filterMap_sighting?_filter,
    D.survey.sightings hs (D.pairwise_pieces h)]

theorem any_surrounds (j i : Nat) :
    (D.cuts.any fun x => x.surrounds j i) = D.read.any fun x => x.surrounds j i := by
  have hall := congrArg (List.any · fun p : Nat × Nat × Nat =>
    p.1 = j && p.2.1 < i && i < p.2.2) (D.cuts_map h hs)
  simp only [List.any_map] at hall
  exact hall

theorem cuts_filter {j : Nat} {block : Block} (hget : D.blocks[j]? = some block)
    (hreads : s.sources.any Source.readsStrings = true) :
    (D.cuts.filter fun x => x.string = j).map (fun x => (x.start, x.stop)) =
      ((Delimiters.findFrom {} j 0 block.chars).filter fun x => x.error?.isNone).map
        Sighting.stretch := by
  have hstring : (D.blocks.map Block.string)[j]? = some block.string := by
    rw [List.getElem?_map, hget]
    rfl
  have hall := congrArg (fun l => (l.filter fun p : Nat × Nat × Nat => p.1 = j).map Prod.snd)
    (D.cuts_map h hs)
  rw [read, sightingsRead, blocksRead, if_pos hreads] at hall
  simp only [List.filter_map, List.map_map, List.filter_filter] at hall
  rw [← Block.string_toList, ← Delimiters.filter_find hstring, List.filter_filter]
  refine hall.trans (congrArg _ (List.filter_congr fun x _ => ?_))
  exact Bool.and_comm ..

end

theorem exists_of_mem_targets {target : Target} (htarget : target ∈ targetsOf D.finds D.added) :
    ∃ f ∈ D.finds, ∃ t ∈ D.added, f.isRead = true ∧ target = f.target t.label ∧
      f.inserted s.document D.container D.blocks t.label ∈ s'.items := by
  obtain ⟨i, hi, rfl⟩ := List.mem_iff_getElem.1 htarget
  simp only [targetsOf, List.length_zipWith] at hi
  have hmem := List.mem_filter.1
    (List.getElem_mem (show i < (D.finds.filter Find.isRead).length by omega))
  refine ⟨_, hmem.1, _, List.getElem_mem (show i < D.added.length by omega), hmem.2, ?_, ?_⟩
  · simp only [targetsOf, List.getElem_zipWith]
  · rw [D.items]
    exact List.mem_iff_getElem.2 ⟨i, by simpa using hi, by simp only [List.getElem_zipWith]⟩

theorem exists_of_mem_cuts (hs : Source.AreUsual s.sources) {x : Insertion} (hx : x ∈ D.cuts) :
    ∃ X t, .sighting X ∈ D.finds ∧ t ∈ D.added ∧ x = X.insertion t.label ∧
      X ∈ Delimiters.find {} (D.blocks.map Block.string) ∧
      (Find.sighting X).inserted s.document D.container D.blocks t.label ∈ s'.items := by
  obtain ⟨f, hf, t, ht, -, htarget, hitem⟩ :=
    D.exists_of_mem_targets (Target.mem_insertions.1 hx)
  cases f with
  | element m display => cases htarget
  | sighting X =>
    refine ⟨X, t, hf, ht, Target.stretch.inj htarget, ?_, hitem⟩
    rcases mem_findsOf hs (D.survey.perm.mem_iff.1 hf) with ⟨X', hX, heq⟩ | ⟨n, -, heq⟩
    · obtain rfl := Find.sighting.inj heq
      exact hX
    · cases heq

theorem exists_isSource (hs : Source.AreUsual s.sources) {x : Insertion} (hx : x ∈ D.cuts) :
    ∃ block, IsSource D.blocks block x := by
  obtain ⟨X, t, -, -, rfl, hX, -⟩ := D.exists_of_mem_cuts hs hx
  exact (isSource_of_mem_find hX t.label).2

theorem kids {p : NodeId} (hp : p ∈ s.document.ids) :
    s'.document.kids p = (s.document.kids p).flatMap D.shown := by
  rw [D.rendering.kids p (D.furnishes.mem_ids hp), D.furnishes.kids hp]

include D in
theorem shell {id : NodeId} (hid : id ∈ s.document.ids) :
    s'.document.shell? id = s.document.shell? id := by
  rw [D.rendering.shell id (D.furnishes.mem_ids hid), D.furnishes.shell? hid]

theorem text {u : Occurrence} (hu : u ∈ occurrences D.blocks)
    (htext : s.document.text? u.piece.node = some u.piece.text) :
    (D.shown u.piece.node).flatMap s'.document.symbols =
      shownText D.cuts u.string u.offset u.piece.text.toList :=
  D.rendering.text u hu (by rwa [D.furnishes.text? (mem_ids_of_text? htext)])

theorem mute (h : s.document.WellFormed) (hplain : s.document.IsPlain) {u : Occurrence}
    (hu : u ∈ occurrences D.blocks) (hmute : s.document.text? u.piece.node = none) :
    D.shown u.piece.node =
      if D.cuts.any fun x => x.surrounds u.string u.offset then [] else [u.piece.node] := by
  obtain ⟨p, hp⟩ := (D.layout h hplain).exists_parent hu
  exact D.rendering.mute u hu (by rwa [D.furnishes.text? (mem_ids_of_mem_kids hp).1])

theorem other {id : NodeId} (hid : id ∈ s.document.ids)
    (hnot : id ∉ D.blocks.flatten.map Piece.node) : D.shown id = [D.swap id] :=
  (D.rendering.other id (D.furnishes.mem_ids hid) hnot).1

/-- Something else stands for a place only if that is a text in a block, or is in no block. -/
theorem shown_cases (h : s.document.WellFormed) (hplain : s.document.IsPlain) {id v : NodeId}
    (hid : id ∈ s.document.ids) (hv : v ∈ D.shown id) :
    v = id ∨
    (∃ u ∈ occurrences D.blocks, u.piece.node = id ∧
      s.document.text? u.piece.node = some u.piece.text) ∨
    id ∉ D.blocks.flatten.map Piece.node ∧ v = D.swap id := by
  by_cases hmem : id ∈ D.blocks.flatten.map Piece.node
  · obtain ⟨u, hu, rfl⟩ := List.mem_map.1 (occurrences_map_node D.blocks ▸ hmem)
    cases htext : s.document.text? u.piece.node with
    | some t =>
      obtain rfl := (D.layout h hplain).text_eq hu htext
      exact .inr (.inl ⟨u, hu, rfl, htext⟩)
    | none =>
      rw [D.mute h hplain hu htext] at hv
      split at hv
      · cases hv
      · exact .inl (List.mem_singleton.1 hv)
  · rw [D.other hid hmem, List.mem_singleton] at hv
    exact .inr (.inr ⟨hmem, hv⟩)

end Session.Rendered

/-! ### Pieces -/

theorem Insertion.exists_of_place_mem {xs : List Insertion} {j i : Nat} {s : List Char}
    {v : NodeId} (h : .place v ∈ shownText xs j i s) : ∃ x ∈ xs, v = x.root := by
  induction s generalizing i with
  | nil => cases h
  | cons c rest ih =>
    rcases List.mem_append.1 h with h | h
    · rw [shownAt] at h
      split at h
      · simp at h
      · rename_i x hfind
        split at h
        · exact ⟨x, List.mem_of_find?_eq_some hfind, by simpa using h⟩
        · cases h
    · exact ih h

/-- What is told of a piece: what the stretches have left of its text. -/
def tellOf (blocks : List Block) (xs : List Insertion) (say : Symbol → List Sign) (p : Piece) :
    List Sign :=
  match (occurrences blocks).find? fun u => u.piece.node = p.node with
  | none => p.plainly
  | some u => (shownText xs u.string u.offset p.text.toList).flatMap say

section

variable {doc : Document} {blocks : List Block} {xs : List Insertion} {say : Symbol → List Sign}

theorem tellOf_of_not_mem {p : Piece} (h : p.node ∉ blocks.flatten.map Piece.node) :
    tellOf blocks xs say p = p.plainly := by
  have hnone : (occurrences blocks).find? (fun u => u.piece.node = p.node) = none := by
    refine List.find?_eq_none.2 fun u hu heq => h ?_
    rw [← of_decide_eq_true heq, ← occurrences_map_node]
    exact List.mem_map_of_mem hu
  rw [tellOf, hnone]

theorem Layout.find?_occurrence (layout : Layout doc blocks) {u : Occurrence}
    (hu : u ∈ occurrences blocks) {id : NodeId} (hid : u.piece.node = id) :
    (occurrences blocks).find? (fun v => v.piece.node = id) = some u := by
  cases hfind : (occurrences blocks).find? fun v => v.piece.node = id with
  | none => exact absurd hid (by simpa using List.find?_eq_none.1 hfind u hu)
  | some v =>
    have hv : v.piece.node = id := by simpa using List.find?_some hfind
    rw [occurrence_unique layout.distinct (List.mem_of_find?_eq_some hfind) hu (hv.trans hid.symm)]

theorem Layout.tellOf_eq (layout : Layout doc blocks) {u : Occurrence}
    (hu : u ∈ occurrences blocks) :
    tellOf blocks xs say u.piece =
      (shownText xs u.string u.offset u.piece.text.toList).flatMap say := by
  rw [tellOf, layout.find?_occurrence hu rfl]

/-- A block is told by what the stretches have left of its text. -/
theorem Layout.flatMap_tellOf (layout : Layout doc blocks) {j : Nat} {block : Block}
    (hget : blocks[j]? = some block) :
    block.flatMap (tellOf blocks xs say) = (shownText xs j 0 block.chars).flatMap say := by
  have key : ∀ rest before : Block, block = before ++ rest →
      rest.flatMap (tellOf blocks xs say) =
        (shownText xs j before.chars.length rest.chars).flatMap say := by
    intro rest
    induction rest with
    | nil => exact fun _ _ => rfl
    | cons p rest ih =>
      intro before heq
      have hu : ⟨j, before.chars.length, p⟩ ∈ occurrences blocks :=
        mem_occurrences.2 ⟨block, before, rest, hget, heq, rfl⟩
      rw [List.flatMap_cons, layout.tellOf_eq hu, ih (before ++ [p]) (by simp [heq]),
        Block.chars_cons, shownText_append, List.flatMap_append]
      simp
  exact key block [] rfl

theorem IsSource.start_ne {block : Block} {x : Insertion} (hx : IsSource blocks block x)
    {u : Occurrence} (hu : u ∈ occurrences blocks) (hstring : u.string = x.string)
    (hbreak : u.piece.text.toList = ['\n']) : x.start ≠ u.offset := fun hstart => by
  obtain ⟨b, before, after, hget, heq, hoffset⟩ := mem_occurrences.1 hu
  obtain ⟨c, hc, hne⟩ := hx.first
  have hsame := hx.get
  rw [← hstring, hget, Option.some.injEq] at hsame
  rw [← hsame, hstart, heq, hoffset, Block.chars_append, Block.chars_cons, hbreak] at hc
  simp only [List.cons_append, List.getElem?_append_right (Nat.le_refl _), Nat.sub_self,
    List.getElem?_cons_zero, Option.some.injEq] at hc
  exact hne hc.symm

/-- What stretches leave of a place that is not running text: nothing, if they enclose it. -/
theorem Layout.shownText_mute (layout : Layout doc blocks)
    (hsource : ∀ x ∈ xs, ∃ block, IsSource blocks block x) {u : Occurrence}
    (hu : u ∈ occurrences blocks) (hmute : doc.text? u.piece.node = none) :
    shownText xs u.string u.offset u.piece.text.toList =
      if xs.any fun x => x.surrounds u.string u.offset then []
      else u.piece.text.toList.map .char := by
  rcases layout.chars_of_mute hu hmute with hnil | hbreak
  · simp [hnil, shownText]
  · rw [hbreak, shownText, shownText, List.append_nil, shownAt]
    cases hfind : xs.find? fun x => x.covers u.string u.offset with
    | none =>
      rw [if_neg]
      · rfl
      · intro hany
        obtain ⟨x, hx, hsurrounds⟩ := List.any_eq_true.1 hany
        refine absurd ?_ (List.find?_eq_none.1 hfind x hx)
        simp only [surrounds, covers, Bool.and_eq_true, decide_eq_true_eq] at hsurrounds ⊢
        omega
    | some x =>
      have hx := List.mem_of_find?_eq_some hfind
      have hcovers := List.find?_some hfind
      simp only [covers, Bool.and_eq_true, decide_eq_true_eq] at hcovers
      obtain ⟨block', hsource⟩ := hsource x hx
      have hne := hsource.start_ne hu hcovers.1.1.symm hbreak
      rw [if_pos]
      · simp [hne.symm]
      · refine List.any_eq_true.2 ⟨x, hx, ?_⟩
        simp only [surrounds, Bool.and_eq_true, decide_eq_true_eq]
        omega

end

/-- What stands for a text is text, or a typeset form. -/
theorem Rendering.mem_shown_cases {doc₀ doc : Document} {blocks : List Block}
    {rank : NodeId → Nat} {xs : List Insertion} {swap : NodeId → NodeId}
    {replaced : List Replacement} {shown : NodeId → List NodeId}
    (R : Rendering doc₀ blocks rank xs swap doc replaced shown) {u : Occurrence}
    (hu : u ∈ occurrences blocks) (htext : doc₀.text? u.piece.node = some u.piece.text)
    {v : NodeId} (hv : v ∈ shown u.piece.node) :
    (∃ s, doc.text? v = some s) ∨ doc.text? v = none ∧ ∃ x ∈ xs, v = x.root := by
  cases hnone : doc.text? v with
  | some s => exact .inl ⟨s, rfl⟩
  | none =>
    refine .inr ⟨rfl, exists_of_place_mem (j := u.string) (i := u.offset)
      (s := u.piece.text.toList) ?_⟩
    rw [← R.text u hu htext]
    exact List.mem_flatMap.2 ⟨v, hv, by simp [symbols_of_text?_eq_none hnone]⟩

/-! ### Telling a document anew -/

section

variable {doc : Document} {container : Node} {blocks : List Block} {xs : List Insertion}
  {w : Watch}

theorem Document.signsAt_text {v : NodeId} {s : String} (htext : doc.text? v = some s)
    (hr : w.reads = true) (hi : w.ignores = false) : doc.signsAt w v = s.toList.map .char := by
  have hpiece : ({} : Extraction).piece? (.string v .text s : Node) = some ⟨v, s⟩ := rfl
  rw [signsAt, find?_of_text? htext, Option.map_some, Option.getD_some, marksIn,
    Watch.before_of_text hpiece hr hi, Watch.after_of_piece? hpiece]
  simp [signs, Mark.retell, Piece.plainly]

theorem piece?_of_mem_find (h : doc.WellFormed) (hc : container ∈ doc.nodes) {p : Piece}
    (hp : p ∈ (({} : Extraction).find container).flatten) {n : Node} (hn : n ∈ doc.nodes)
    (hlabel : p.node = n.label) : ({} : Extraction).piece? n = some p := by
  obtain ⟨n', hn', hpiece⟩ := exists_of_mem_find hp
  have hsame : n = n' := eq_of_label_eq h.distinct hn (subtreesAll_trans hn' hc)
    (hlabel.symm.trans (Extraction.piece?_node hpiece))
  exact hsame ▸ hpiece

/-- A running text that is read is noted as a piece, whether it is hidden or not. -/
theorem Document.WellFormed.marksIn_text (h : doc.WellFormed) {n : Node} (hn : n ∈ doc.nodes)
    {s : String} (htext : doc.text? n.label = some s) {p : Piece}
    (hpiece : ({} : Extraction).piece? n = some p) (hr : w.reads = true) (hi : w.ignores = false)
    {hide : NodeId → Bool} : marksIn hide w n = [.piece p] := by
  have hchildren : n.children = [] := by
    rw [h.eq_string hn htext]
    rfl
  rw [marksIn_of_piece? hpiece, Watch.before_of_text hpiece hr hi, hchildren, marksAmong, ite_self,
    List.append_nil]

theorem areNoted_find (container : Node) (seeks : Bool) :
    AreNoted ((({} : Extraction).find container).flatten.map Piece.node) ⟨true, false, seeks⟩
      container := by
  intro id hid _
  obtain ⟨p, hp, rfl⟩ := List.mem_map.1 hid
  obtain ⟨block, hblock, hp⟩ := List.mem_flatten.1 hp
  rw [find_eq_blocksOf container seeks] at hblock
  rcases mem_of_mem_blocksOf (List.mem_filter.1 hblock).1 hp with hnil | hmark
  · cases hnil
  · exact ⟨p, hmark, rfl⟩

end

namespace Session.Rendered

variable {s s' : Session} (D : s.Rendered s')

/-- A document that shows the children of a rendered one in another way is told by what the
stretches have left of the pieces. -/
theorem retold (h : s.document.WellFormed) (hplain : s.document.IsPlain)
    (hs : Source.AreUsual s.sources) {doc : Document} {hide : NodeId → Bool}
    {shown : NodeId → List NodeId} {say : Symbol → List Sign} (hsay : ∀ c, say (.char c) = [.char c])
    (hkids : ∀ p ∈ s.document.ids, doc.kids p = (s.document.kids p).flatMap shown)
    (hshell : ∀ id ∈ s.document.ids, doc.shell? id = s.document.shell? id)
    (htexts : ∀ u ∈ occurrences D.blocks, s.document.text? u.piece.node = some u.piece.text →
      ∀ w : Watch, w.reads = true → w.ignores = false →
        (shown u.piece.node).flatMap (doc.signsAt w) =
          ((D.shown u.piece.node).flatMap s'.document.symbols).flatMap say)
    (hmutes : ∀ u ∈ occurrences D.blocks, s.document.text? u.piece.node = none →
      (shown u.piece.node = if hide u.piece.node then [] else [u.piece.node]) ∧
        hide u.piece.node = D.cuts.any fun x => x.surrounds u.string u.offset)
    (hothers : ∀ n ∈ s.document.nodes, n.label ∉ D.blocks.flatten.map Piece.node →
      (shown n.label = [n.label] ∧ hide n.label = false) ∨
        ∀ (w : Watch) (tell : Piece → List Sign),
          (∀ p, ({} : Extraction).piece? n = some p → tell p = p.plainly) →
            (shown n.label).flatMap (doc.signsAt w) =
              (marksIn hide w n).flatMap (Mark.retell tell)) :
    s.document.Retold doc hide (D.blocks.flatten.map Piece.node) shown
      (tellOf D.blocks D.cuts say) where
  kids := hkids
  shell := hshell
  here := by
    intro n hn
    have layout := D.layout h hplain
    by_cases hmem : n.label ∈ D.blocks.flatten.map Piece.node
    · obtain ⟨u, hu, hnode⟩ := List.mem_map.1 (occurrences_map_node D.blocks ▸ hmem)
      have hin : u.piece ∈ D.blocks.flatten :=
        occurrencesFrom_map 0 D.blocks ▸ List.mem_map_of_mem hu
      have hpiece := piece?_of_mem_find h D.mem_nodes (D.blocks_eq ▸ hin) hn hnode
      cases htext : s.document.text? u.piece.node with
      | some t =>
        -- a running text: what is left of it is told instead
        right
        intro w hw
        obtain ⟨hr, hi⟩ := hw hmem
        obtain rfl := layout.text_eq hu htext
        rw [h.marksIn_text hn (hnode ▸ htext) hpiece hr hi, List.flatMap_singleton, Mark.retell,
          layout.tellOf_eq hu, ← D.text hu htext, ← hnode]
        exact htexts u hu htext w hr hi
      | none =>
        -- a line break or a comment: it is gone if it is inside a source, and stays otherwise
        obtain ⟨hshown, hhide⟩ := hmutes u hu htext
        have htold := @layout.shownText_mute _ _ D.cuts (fun x hx => D.exists_isSource hs hx) u hu
          htext
        rw [← hhide] at htold
        rw [hnode] at hshown htold
        cases hhidden : hide n.label with
        | true =>
          right
          intro w hw
          obtain ⟨hr, hi⟩ := hw hmem
          rw [hhidden, if_pos rfl] at hshown htold
          rw [hshown, marksIn_of_piece? hpiece, Watch.before_of_text hpiece hr hi, if_pos hhidden]
          simp [Mark.retell, layout.tellOf_eq hu, htold]
        | false =>
          left
          rw [hhidden, if_neg (by decide)] at hshown htold
          refine ⟨hshown, rfl, fun p hp => ?_⟩
          obtain rfl : u.piece = p := Option.some.inj (hpiece.symm.trans hp)
          rw [layout.tellOf_eq hu, htold, List.flatMap_map]
          simp [hsay, Piece.plainly, List.map_eq_flatMap]
    · rcases hothers n hn hmem with ⟨hshown, hhide⟩ | hgiven
      · refine .inl ⟨hshown, hhide, fun p hp => tellOf_of_not_mem ?_⟩
        rwa [Extraction.piece?_node hp]
      · refine .inr fun w _ => hgiven w _ fun p hp => tellOf_of_not_mem ?_
        rwa [Extraction.piece?_node hp]

end Session.Rendered

end Formulary
