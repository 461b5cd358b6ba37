import Formulary.Proofs.Discovery.Surveys

/-! # Locations spell the source

An item that is found in the strings of a container keeps two locations.  The text of its block
from one to the other is the mathematics with its delimiters (`Item.Spells`), whatever the
delimiters are and whatever text is searched (`discover_spells`).

`Block.between?` reads the text between two locations.  The pieces of a block are of different
places, so a location is in one piece of its block only. -/

namespace Formulary

open Formulary.Tree Document

/-! ### Reading between locations -/

/-- The text of a block up to the offset `n` in the piece of the place `id`. -/
def Block.upTo? (id : NodeId) (n : Int) : Block → Option (List Char)
  | [] => none
  | piece :: rest =>
    if piece.node = id then some (piece.text.toList.take n.toNat)
    else (Block.upTo? id n rest).map (piece.text.toList ++ ·)

/-- The text of a block from one location to another one. -/
def Block.between? (block : Block) (start stop : Location NodeId) : Option (List Char) :=
  match start.node, stop.node with
  | some first, some last =>
    (Block.upTo? last stop.offset (block.dropWhile fun piece => piece.node ≠ first)).map
      (List.drop start.offset.toNat)
  | _, _ => none

/-- A location is in a piece of a block. -/
structure Location.IsIn (location : Location NodeId) (block : Block) (piece : Piece) : Prop where
  mem : piece ∈ block
  node : location.node = some piece.node
  nonneg : 0 ≤ location.offset
  le : location.offset ≤ piece.text.toList.length

/-- The text of a block between the two locations of an item is its source, delimiters
included. -/
structure Item.Spells (item : Item) (block : Block) : Prop where
  resolved : item.isResolved = true
  start : ∃ piece, item.start.IsIn block piece
  stop : ∃ piece, item.stop.IsIn block piece
  spelling : ∃ s, item.math = .text s ∧ block.between? item.start item.stop =
    some (item.start.delimiter.toList ++ s.toList ++ item.stop.delimiter.toList)

namespace Block

theorem upTo?_append {id : NodeId} {mid : Block} (h : ∀ c ∈ mid, c.node ≠ id) (n : Int)
    (rest : Block) : upTo? id n (mid ++ rest) = (upTo? id n rest).map (mid.chars ++ ·) := by
  induction mid with
  | nil => simp
  | cons c mid ih =>
    rw [List.cons_append, upTo?, if_neg (h c (List.mem_cons_self ..)),
      ih fun d hd => h d (List.mem_cons_of_mem _ hd), Option.map_map]
    simp [Function.comp_def]

theorem dropWhile_append_cons {before after : Block} {piece : Piece}
    (h : ((before ++ piece :: after).map Piece.node).Nodup) :
    (before ++ piece :: after).dropWhile (fun c => c.node ≠ piece.node) = piece :: after := by
  have hne : ∀ c ∈ before, decide (c.node ≠ piece.node) = true := by
    intro c hc
    rw [List.map_append, List.map_cons, List.nodup_append] at h
    exact decide_eq_true (h.2.2 _ (List.mem_map_of_mem hc) _ (List.mem_cons_self ..))
  rw [List.dropWhile_append_of_pos hne, List.dropWhile_cons_of_neg (by simp)]

/-- Of two offsets of a block, one not beyond the other, the first is located in a piece `first` and
the second in a piece `last`, and `mid` are the pieces from the one up to the other. -/
theorem exists_ends {block : Block} (hne : block ≠ []) {n m : Nat} (hle : n ≤ m)
    (hm : m ≤ block.chars.length) :
    ∃ (before mid after : Block) (first last : Piece), block = before ++ (mid ++ last :: after) ∧
      (mid ++ [last]).head? = some first ∧
      (∀ d, locate block.runs n d = ⟨some first.node, n - (before.chars.length : Int), d⟩) ∧
      (∀ d, locate block.runs m d = ⟨some last.node, m - ((before ++ mid).chars.length : Int), d⟩) ∧
      before.chars.length ≤ n ∧ n ≤ before.chars.length + first.text.toList.length ∧
      (before ++ mid).chars.length ≤ m ∧
      m ≤ (before ++ mid).chars.length + last.text.toList.length := by
  obtain ⟨before, first, after, heq, hstart, hreach, hbegin⟩ :=
    locate_spec block hne (Nat.le_trans hle hm)
  obtain ⟨before', last, after', heq', hstop, hreach', hbegin'⟩ := locate_spec block hne hm
  have hbefore : before.chars.length ≤ n := by
    rcases hbegin with rfl | hlt
    · exact Nat.zero_le n
    · exact Nat.le_of_lt hlt
  have hbefore' : before'.chars.length ≤ m := by
    rcases hbegin' with rfl | hlt
    · exact Nat.zero_le m
    · exact Nat.le_of_lt hlt
  rcases located_eq_or_before heq heq' hle hbegin hreach' with ⟨rfl, rfl⟩ | ⟨mid, rfl⟩
  · exact ⟨before, [], after', first, first, heq', rfl, hstart, by simpa using hstop, hbefore, hreach,
      by simpa using hbefore', by simpa using hreach'⟩
  · refine ⟨before, first :: mid, after', first, last, ?_, rfl, hstart, hstop, hbefore, hreach,
      hbefore', hreach'⟩
    rw [heq', List.append_assoc]

/-- Two offsets of a block, one not beyond the other, are located in it, and the text between
their locations is the text between the offsets. -/
theorem between?_locate {block : Block} (hnodup : (block.map Piece.node).Nodup)
    (hne : block ≠ []) {n m : Nat} (hle : n ≤ m) (hm : m ≤ block.chars.length)
    (opener closer : String) :
    (∃ piece, (locate block.runs n opener).IsIn block piece) ∧
      (∃ piece, (locate block.runs m closer).IsIn block piece) ∧
      block.between? (locate block.runs n opener) (locate block.runs m closer) =
        some ((block.chars.drop n).take (m - n)) := by
  obtain ⟨before, mid, after, first, last, heq, hhead, hstart, hstop, hbefore, hreach, hbefore',
    hreach'⟩ := exists_ends hne hle hm
  obtain ⟨rest, hrest⟩ : ∃ rest, mid ++ last :: after = first :: rest := by
    obtain ⟨rest, hrest⟩ := List.head?_eq_some_iff.1 hhead
    exact ⟨rest ++ after, by rw [← List.cons_append, ← hrest, List.append_assoc]; rfl⟩
  have hlast : ∀ c ∈ mid, c.node ≠ last.node := by
    intro c hc
    rw [heq, List.map_append, List.map_append, List.map_cons] at hnodup
    exact (List.nodup_append.1 (List.nodup_append.1 hnodup).2.1).2.2 _ (List.mem_map_of_mem hc) _
      (List.mem_cons_self ..)
  have hlen : (before ++ mid).chars.length = before.chars.length + mid.chars.length := by
    rw [chars_append, List.length_append]
  refine ⟨⟨first, ?_⟩, ⟨last, ?_⟩, ?_⟩
  · rw [hstart]
    exact ⟨by simp [heq, hrest], rfl, by simp only; omega, by simp only; omega⟩
  · rw [hstop]
    exact ⟨by simp [heq], rfl, by simp only; omega, by simp only; omega⟩
  · have hoffset : ((n : Int) - (before.chars.length : Int)).toNat = n - before.chars.length := by
      omega
    have hoffset' : ((m : Int) - ((before ++ mid).chars.length : Int)).toNat =
        m - (before ++ mid).chars.length := by
      omega
    have hchars : block.chars.drop before.chars.length =
        mid.chars ++ (last.text.toList ++ after.chars) := by
      rw [heq, chars_append, List.drop_left, chars_append, chars_cons]
    have hupTo : mid.chars ++ last.text.toList.take (m - (before ++ mid).chars.length) =
        (block.chars.drop before.chars.length).take (m - before.chars.length) := by
      have hk : m - before.chars.length - mid.chars.length = m - (before ++ mid).chars.length := by
        omega
      have hwhole : mid.chars.length ≤ m - before.chars.length := by omega
      have hlast' : m - (before ++ mid).chars.length ≤ last.text.toList.length := by omega
      rw [hchars, List.take_append, List.take_of_length_le hwhole, hk,
        List.take_append_of_le_length hlast']
    have hfrom : block.dropWhile (fun c => c.node ≠ first.node) = mid ++ last :: after := by
      rw [hrest] at heq ⊢
      rw [heq, dropWhile_append_cons (heq ▸ hnodup)]
    have hbegin : before.chars.length + (n - before.chars.length) = n := by omega
    have hcount : m - before.chars.length - (n - before.chars.length) = m - n := by omega
    rw [hstart, hstop, between?]
    simp only
    rw [hfrom, upTo?_append hlast, upTo?, if_pos rfl, hoffset, hoffset', Option.map_some,
      Option.map_some, hupTo, List.drop_take, List.drop_drop, hbegin, hcount]

end Block

/-! ### Items of a discovery -/

/-- The source is TeX between delimiters, whichever they are. -/
def Source.IsTex (source : Source) : Prop :=
  ∃ delims dialect limit, source.format = .tex delims dialect limit

/-- The source looks at strings in a way of its own, not for TeX between delimiters. -/
def Source.IsForeign (source : Source) : Prop :=
  ∃ name find read, source.format = .other name (.strings find) read

/-- The source looks at places in a way of its own, not for elements called `math`. -/
def Source.SeesPlaces (source : Source) : Prop :=
  ∃ name find read, source.format = .other name (.places find) read

theorem mem_of_mapM_eq_ok {α β : Type} {f : α → Except Fault β} {l : List α} {m : List β}
    (h : l.mapM f = .ok m) : ∀ b ∈ m, ∃ a ∈ l, f a = .ok b := by
  induction l generalizing m with
  | nil =>
    cases h
    exact fun b hb => absurd hb List.not_mem_nil
  | cons a rest ih =>
    rw [List.mapM_cons] at h
    obtain ⟨b, hb, h⟩ := Reader.exists_ok_of_bind h
    obtain ⟨bs, hbs, h⟩ := Reader.exists_ok_of_bind h
    cases h
    intro c hc
    rcases List.mem_cons.1 hc with rfl | hc
    · exact ⟨a, List.mem_cons_self .., hb⟩
    · obtain ⟨d, hd, hdc⟩ := ih hbs c hc
      exact ⟨d, List.mem_cons_of_mem _ hd, hdc⟩

section

variable {doc : Document} {o : Extraction} {container : Node} {source : Source}
  {visit visit' : Visit}

theorem nodup_block (h : doc.WellFormed) (hc : container ∈ doc.nodes) {block : Block}
    (hblock : block ∈ o.find container) : (block.map Piece.node).Nodup := by
  have hnodup := nodup_below h.distinct hc
  rw [labels, subtrees_eq, List.map_cons, List.nodup_cons] at hnodup
  refine (hnodup.2.sublist (o.find_sublist container)).sublist ?_
  exact (List.sublist_flatten_of_mem hblock).map _

theorem exists_block {delims : Delimiters} {x : Sighting}
    (hx : x ∈ delims.find ((o.find container).map Block.string)) :
    ∃ (j n m : Nat) (block : Block), (o.find container)[j]? = some block ∧ x.string = j ∧
      x.start = n ∧ x.stop = m ∧ n ≤ m ∧ m ≤ block.chars.length ∧
      (block.chars.drop n).take (m - n) = x.spelling := by
  obtain ⟨j, s, hget, -, hstring, before, after, hs, hstart, hstop⟩ := Delimiters.find_spec hx
  rw [List.getElem?_map] at hget
  obtain ⟨block, hblock, rfl⟩ := Option.map_eq_some_iff.1 hget
  rw [Block.string_toList] at hs
  refine ⟨j, before.length, before.length + x.spelling.length, block, hblock, hstring, by omega,
    by omega, by omega, ?_, ?_⟩
  · rw [hs, List.length_append, List.length_append]
    omega
  · rw [hs, List.append_assoc, List.drop_left, Nat.add_sub_cancel_left, List.take_left]

/-- The item of a sighting spells its source. -/
theorem Visit.itemOf_spells (h : doc.WellFormed) (hc : container ∈ doc.nodes)
    {delims : Delimiters} {x : Sighting}
    (hx : x ∈ delims.find ((o.find container).map Block.string)) :
    ∃ item, visit.itemOf source (o.find container) x = .ok item ∧ item.source = source ∧
      ∃ block ∈ o.find container, item.Spells block := by
  obtain ⟨j, n, m, block, hget, hstring, hstart, hstop, hle, hm, hspelling⟩ := exists_block hx
  have hblock := List.mem_of_getElem? hget
  have hne : block ≠ [] := by
    rintro rfl
    simpa [Block.string, Text.isBlankText] using (List.mem_filter.1 hblock).2
  obtain ⟨hbegin, hend, hbetween⟩ :=
    Block.between?_locate (nodup_block h hc hblock) hne hle hm x.opener x.closer
  have hdelimiter : ∀ (runs : List (Run NodeId)) (k : Int) (d : String),
      (locate runs k d).delimiter = d := by
    intro runs
    induction runs with
    | nil => exact fun _ _ => rfl
    | cons run rest ih =>
      intro k d
      rw [locate]
      split
      · rfl
      · exact ih _ d
  rw [itemOf, hstring, Text.atIndex?_natCast hget]
  refine ⟨_, rfl, rfl, block, hblock, ?_, ?_, ?_, x.math, rfl, ?_⟩
  · obtain ⟨first, hfirst⟩ := hbegin
    obtain ⟨last, hlast⟩ := hend
    simp [Item.isResolved, hstart, hstop, hfirst.node, hlast.node]
  · simpa only [hstart] using hbegin
  · simpa only [hstop] using hend
  · simp only [hstart, hstop, hdelimiter]
    rw [hbetween, hspelling, Sighting.spelling]

/-- The visit is of a container, and keeps its blocks. -/
structure Visit.IsOf (o : Extraction) (container : Node) (visit : Visit) : Prop where
  place : visit.container = container
  texts : visit.blocks.getD (o.find container) = o.find container

/-- An item for TeX is spelled in a block of one of some containers. -/
def Item.IsSpelledIn (doc : Document) (o : Extraction) (containers : List NodeId) (item : Item) :
    Prop :=
  item.source.IsTex → ∃ id ∈ containers, ∃ container, doc.find? id = some container ∧
    ∃ block ∈ o.find container, item.Spells block

theorem Visit.IsOf.strings (hv : visit.IsOf o container) :
    ∃ visit', visit.strings o = (o.find container, visit') ∧ visit'.IsOf o container ∧
      visit'.items = visit.items := by
  obtain ⟨rfl, htexts⟩ := hv
  rw [Visit.strings]
  cases hblocks : visit.blocks with
  | some blocks =>
    have hsame := htexts
    rw [hblocks, Option.getD_some] at hsame
    exact ⟨visit, by rw [hsame], ⟨rfl, htexts⟩, rfl⟩
  | none => exact ⟨_, rfl, ⟨rfl, rfl⟩, rfl⟩

theorem Visit.IsOf.ask (hv : visit.IsOf o container) (h : doc.WellFormed) {id : NodeId}
    (hc : doc.find? id = some container) (hask : visit.ask doc o source = .ok visit') :
    visit'.IsOf o container ∧ ∃ found, visit'.items.Perm (visit.items ++ found) ∧
      ∀ item ∈ found, item.IsSpelledIn doc o [id] := by
  have hmem := (mem_of_find? hc).1
  rw [Visit.ask] at hask
  split at hask
  · obtain ⟨middle, hstrings, hmiddle, hitems⟩ := hv.strings
    rw [hstrings] at hask
    obtain ⟨found, hfound, hask⟩ := Reader.exists_ok_of_bind hask
    cases hask
    refine ⟨⟨hmiddle.place, hmiddle.texts⟩, found, hitems ▸ mergeByKey_perm _ _,
      fun item hitem htex => ?_⟩
    obtain ⟨x, hx, hitemOf⟩ := mem_of_mapM_eq_ok hfound item hitem
    have hsource : item.source = source := by
      rw [itemOf] at hitemOf
      split at hitemOf
      · cases hitemOf
      · cases hitemOf
        rfl
    obtain ⟨delims, dialect, limit, hformat⟩ := hsource ▸ htex
    rw [Source.sightings, hformat] at hx
    obtain ⟨item', hitem', -, hspells⟩ := middle.itemOf_spells h hmem hx
    obtain rfl : item' = item := Except.ok.inj (hitem'.symm.trans hitemOf)
    exact ⟨id, List.mem_singleton_self id, container, hc, hspells⟩
  · rename_i hreads
    cases hask
    refine ⟨⟨hv.place, hv.texts⟩, _, mergeByKey_perm _ _, fun item hitem htex => ?_⟩
    obtain ⟨spot, -, rfl⟩ := List.mem_map.1 hitem
    obtain ⟨delims, dialect, limit, hformat⟩ := htex
    have hformat : source.format = .tex delims dialect limit := hformat
    simp [Source.readsStrings, hformat] at hreads

theorem Visit.IsOf.exists_ask (hv : visit.IsOf o container) (h : doc.WellFormed)
    (hc : container ∈ doc.nodes) (hsource : ¬source.IsForeign) :
    ∃ visit', visit.ask doc o source = .ok visit' := by
  rw [Visit.ask]
  split
  · rename_i hreads
    obtain ⟨middle, hstrings, -, -⟩ := hv.strings
    have hitems : ∀ x ∈ source.sightings ((o.find container).map Block.string),
        ∃ item, middle.itemOf source (o.find container) x = .ok item := fun x hx => by
      rw [Source.sightings] at hx
      split at hx
      · exact (itemOf_spells h hc hx).imp fun _ found => found.1
      · rename_i name find read hformat
        exact absurd ⟨name, find, read, hformat⟩ hsource
      · exact absurd hx List.not_mem_nil
      · exact absurd hx List.not_mem_nil
    choose! item hitem using hitems
    rw [hstrings]
    simp only [mapM_eq_ok hitem]
    exact ⟨_, rfl⟩
  · exact ⟨_, rfl⟩

theorem Item.IsSpelledIn.mono {ids ids' : List NodeId} {item : Item}
    (h : item.IsSpelledIn doc o ids) (hsub : ∀ id ∈ ids, id ∈ ids') :
    item.IsSpelledIn doc o ids' := fun htex =>
  let ⟨id, hid, found⟩ := h htex
  ⟨id, hsub id hid, found⟩

theorem Visit.IsOf.askAll {sources : List Source} (hv : visit.IsOf o container)
    (h : doc.WellFormed) {id : NodeId} (hc : doc.find? id = some container)
    (hask : visit.askAll doc o sources = .ok visit') :
    ∃ found, visit'.items.Perm (visit.items ++ found) ∧
      ∀ item ∈ found, item.IsSpelledIn doc o [id] := by
  induction sources generalizing visit with
  | nil =>
    cases hask
    exact ⟨[], by simp, fun item hitem => absurd hitem List.not_mem_nil⟩
  | cons source rest ih =>
    obtain ⟨middle, hmiddle, hask⟩ := Reader.exists_ok_of_bind hask
    obtain ⟨hv', found, hperm, hfound⟩ := hv.ask h hc hmiddle
    obtain ⟨others, hperm', hothers⟩ := ih hv' hask
    refine ⟨found ++ others, ?_, fun item hitem => ?_⟩
    · rw [← List.append_assoc]
      exact hperm'.trans (hperm.append_right others)
    · exact (List.mem_append.1 hitem).elim (hfound item) (hothers item)

theorem Visit.IsOf.exists_askAll {sources : List Source} (hv : visit.IsOf o container)
    (h : doc.WellFormed) {id : NodeId} (hc : doc.find? id = some container)
    (hsources : ∀ source ∈ sources, ¬source.IsForeign) :
    ∃ visit', visit.askAll doc o sources = .ok visit' := by
  induction sources generalizing visit with
  | nil => exact ⟨visit, rfl⟩
  | cons source rest ih =>
    obtain ⟨middle, hmiddle⟩ :=
      hv.exists_ask h (mem_of_find? hc).1 (hsources source (List.mem_cons_self ..))
    obtain ⟨visit', hask⟩ := ih (hv.ask h hc hmiddle).1
      fun other hother => hsources other (List.mem_cons_of_mem _ hother)
    refine ⟨visit', ?_⟩
    rw [Visit.askAll, hmiddle]
    exact hask

/-- What some containers add in turn. -/
theorem discoverFrom_spells {sources : List Source} (h : doc.WellFormed) {index : Nat}
    {survey survey' : Survey} {containers : List NodeId}
    (hrun : discoverFrom doc o sources index survey containers = .ok survey') :
    ∃ found, survey'.items.Perm (survey.items ++ found) ∧
      ∀ item ∈ found, item.IsSpelledIn doc o containers := by
  induction containers generalizing index survey with
  | nil =>
    cases hrun
    exact ⟨[], by simp, fun item hitem => absurd hitem List.not_mem_nil⟩
  | cons id rest ih =>
    obtain ⟨container, hget, hrun⟩ := Reader.exists_ok_of_bind hrun
    obtain ⟨visit, hvisit, hrun⟩ := Reader.exists_ok_of_bind hrun
    have hc : doc.find? id = some container := Document.find?_of_get hget
    have hv : Visit.IsOf o container 
      { index, container, items := survey.items, extracted := survey.extracted } := ⟨rfl, rfl⟩
    obtain ⟨found, hperm, hfound⟩ := hv.askAll h hc hvisit
    obtain ⟨others, hperm', hothers⟩ := ih hrun
    refine ⟨found ++ others, ?_, fun item hitem => ?_⟩
    · rw [← List.append_assoc]
      exact hperm'.trans (hperm.append_right others)
    · rcases List.mem_append.1 hitem with hitem | hitem
      · refine (hfound item hitem).mono fun other hother => ?_
        rw [List.mem_singleton.1 hother]
        exact List.mem_cons_self ..
      · exact (hothers item hitem).mono fun other hother => List.mem_cons_of_mem _ hother

theorem exists_discoverFrom {sources : List Source} (h : doc.WellFormed)
    (hsources : ∀ source ∈ sources, ¬source.IsForeign) {index : Nat} {survey : Survey}
    {containers : List NodeId} (hcontainers : ∀ id ∈ containers, id ∈ doc.ids) :
    ∃ survey', discoverFrom doc o sources index survey containers = .ok survey' := by
  induction containers generalizing index survey with
  | nil => exact ⟨survey, rfl⟩
  | cons id rest ih =>
    obtain ⟨container, hc⟩ := exists_of_mem_ids (hcontainers id (List.mem_cons_self ..))
    have hv : Visit.IsOf o container 
      { index, container, items := survey.items, extracted := survey.extracted } := ⟨rfl, rfl⟩
    obtain ⟨visit, hvisit⟩ := hv.exists_askAll h hc hsources
    simp only [discoverFrom, WellFormed.get_eq hc, bind, Except.bind, hvisit]
    exact ih fun other hother => hcontainers other (List.mem_cons_of_mem _ hother)

end

/-- What a discovery adds to a list of items for TeX has its two locations in one block of a
container, and the text between them is the mathematics with its delimiters.  A discovery in
places of the document succeeds, unless a source looks at strings in a way of its own. -/
theorem discover_spells (doc : Document) (hdoc : doc.WellFormed) (o : Extraction)
    (containers : List NodeId) (sources : List Source) (items : List Item) :
    (∀ survey, discover doc o containers sources items = .ok survey →
      ∃ found, survey.items.Perm (items ++ found) ∧ ∀ item ∈ found, item.source.IsTex →
        ∃ id ∈ containers, ∃ container, doc.find? id = some container ∧
          ∃ block ∈ o.find container, item.Spells block) ∧
    ((∀ id ∈ containers, id ∈ doc.ids) → (∀ source ∈ sources, ¬source.IsForeign) →
      ∃ survey, discover doc o containers sources items = .ok survey) :=
  ⟨fun _ hrun => discoverFrom_spells hdoc hrun,
    fun hcontainers hsources => exists_discoverFrom hdoc hsources hcontainers⟩

/-- A paragraph with mathematics that begins after an empty string and goes on after a line break,
and an environment with a blank in its end. -/
def Document.brokenFormula : Document :=
  .ofFragments [.build "p" [] [.text "Let ", .text "", .text "$x", .build "br" [] [],
    .text "+1$ be \\begin\x7ba\x7dz\\end \x7ba\x7d."]]

theorem discover_spells_brokenFormula : brokenFormula.WellFormed ∧
    ∃ survey found,
      discover brokenFormula {} [brokenFormula.body] [.tex, .mathml] [] = .ok survey ∧
      survey.items.Perm found ∧ ∀ item ∈ found, item.source.IsTex →
        ∃ id ∈ [brokenFormula.body], ∃ container, brokenFormula.find? id = some container ∧
          ∃ block ∈ ({} : Extraction).find container, item.Spells block := by
  have hdoc : brokenFormula.WellFormed := wellFormed_ofFragments _
  obtain ⟨hspells, hsucceeds⟩ :=
    discover_spells brokenFormula hdoc {} [brokenFormula.body] [.tex, .mathml] []
  have hbody : ∀ id ∈ [brokenFormula.body], id ∈ brokenFormula.ids := fun id hid => by
    obtain ⟨container, hc⟩ := exists_body brokenFormula
    rw [List.mem_singleton.1 hid]
    exact find?_isSome_iff.1 (hc ▸ rfl)
  obtain ⟨survey, hsurvey⟩ := hsucceeds hbody fun source hsource hforeign => by
    obtain ⟨name, find, read, hformat⟩ := hforeign
    rcases List.mem_pair.1 hsource with rfl | rfl <;> cases hformat
  obtain ⟨found, hperm, hfound⟩ := hspells survey hsurvey
  exact ⟨hdoc, survey, found, hsurvey, hperm, hfound⟩

end Formulary
