import Formulary.Proofs.Reader.ExpansionLimit
import Formulary.Proofs.Session.RenderedSession

/-! # What a rendered document shows

After all stages of a session for TeX every list of children reads as before, with one place, the
typeset form, for the stretch of every sighting that can be read (`render_shows`). -/

namespace Formulary

open Formulary.Tree Document

/-- What is seen of a child after the stretches `cuts` of the blocks have given way: of a text
what is outside the stretches, and of a line break or a comment nothing if it is inside one. -/
def Document.seenAfter (doc : Document) (blocks : List Block) (cuts : List Insertion)
    (id : NodeId) : List Symbol :=
  match (occurrences blocks).find? fun u => u.piece.node = id with
  | none => doc.symbols id
  | some u =>
    match doc.text? id with
    | some s => Insertion.shownText cuts u.string u.offset s.toList
    | none => if cuts.any fun x => x.surrounds u.string u.offset then [] else doc.symbols id

section

variable {doc₀ doc : Document} {blocks : List Block} {rank : NodeId → Nat} {xs : List Insertion}
  {swap : NodeId → NodeId} {replaced : List Replacement} {shown : NodeId → List NodeId}

theorem Rendering.symbols (R : Rendering doc₀ blocks rank xs swap doc replaced shown) {id : NodeId}
    (hid : id ∈ doc₀.ids) : doc.symbols id = doc₀.symbols id := by
  rw [Document.symbols, Document.symbols, R.text? hid]

/-- What is seen of a child in the middle of an update without elements. -/
theorem Rendering.flatMap_shown (R : Rendering doc₀ blocks rank xs swap doc replaced shown)
    (layout : Layout doc₀ blocks) (hswap : ∀ id, swap id = id) {id : NodeId} (hid : id ∈ doc₀.ids) :
    (shown id).flatMap doc.symbols = doc₀.seenAfter blocks xs id := by
  rw [seenAfter]
  cases hfind : (occurrences blocks).find? fun u => u.piece.node = id with
  | none =>
    have hout : id ∉ blocks.flatten.map Piece.node := by
      rw [← occurrences_map_node]
      intro hm
      obtain ⟨u, hu, hnode⟩ := List.mem_map.1 hm
      exact absurd (decide_eq_true hnode) (List.find?_eq_none.1 hfind u hu)
    rw [(R.other id hid hout).1, hswap, List.flatMap_singleton, R.symbols hid]
  | some u =>
    have hu := List.mem_of_find?_eq_some hfind
    obtain rfl : u.piece.node = id := by simpa using List.find?_some hfind
    cases htext : doc₀.text? u.piece.node with
    | some s =>
      obtain rfl := layout.text_eq hu htext
      exact R.text u hu htext
    | none =>
      simp only
      rw [R.mute u hu htext]
      split
      · rfl
      · rw [List.flatMap_singleton, R.symbols hid]

end

theorem Document.Furnished.seenAfter {doc doc' : Document} {added : List Node}
    (h : doc.Furnished doc' added) {blocks : List Block} {cuts : List Insertion} {id : NodeId}
    (hid : id ∈ doc.ids) : doc'.seenAfter blocks cuts id = doc.seenAfter blocks cuts id := by
  simp only [Document.seenAfter, Document.symbols, h.text? hid]

/-! ### Sessions for TeX -/

/-- The session `s` has the typeset forms `roots` of the sightings `read` in place of their
sources in the document `doc`, and nothing else is changed. -/
structure Session.Shows (s : Session) (doc : Document) (blocks : List Block)
    (read : List Sighting) (roots : List NodeId) : Prop where
  length : roots.length = read.length
  distinct : roots.Nodup
  new : ∀ root ∈ roots, root ∉ doc.ids
  items : s.items.map (fun item => (item.math, item.content, item.stage)) =
    List.zipWith (fun (x : Sighting) (root : NodeId) => (.text x.math, some root, .inserted)) read
      roots
  root : s.document.root.label = doc.root.label
  shells : ∀ id ∈ doc.ids, s.document.shell? id = doc.shell? id
  streams : ∀ id ∈ doc.ids, s.document.stream id =
    (doc.kids id).flatMap (doc.seenAfter blocks (List.zipWith Sighting.insertion read roots))

theorem insertions_targets (read : List Sighting) (added : List Node) :
    Target.insertions (List.zipWith (fun (f : Find) (t : Node) => f.target t.label)
      (read.map .sighting) added) =
        List.zipWith Sighting.insertion read (added.map label) := by
  induction read generalizing added with
  | nil => rfl
  | cons x rest ih =>
    cases added with
    | nil => rfl
    | cons t added => exact congrArg _ (ih added)

theorem swap_targets (read : List Sighting) (added : List Node) (id : NodeId) :
    Target.swap (List.zipWith (fun (f : Find) (t : Node) => f.target t.label)
      (read.map .sighting) added) id = id := by
  induction read generalizing added with
  | nil => rfl
  | cons x rest ih =>
    cases added with
    | nil => rfl
    | cons t added => exact ih added

theorem filter_isRead_map (found : List Sighting) :
    (found.map Find.sighting).filter Find.isRead =
      (found.filter fun x => x.error?.isNone).map .sighting := by
  rw [List.filter_map]
  rfl

/-- The stages of a session for TeX put the typeset form of every sighting that can be read in
place of its source, and record the others. -/
theorem render_shows (doc : Document) (hdoc : doc.WellFormed) (hplain : doc.IsPlain) :
    ∃ s container roots,
      ({ document := doc, sources := [.tex] } : Session).render = .ok s ∧
      doc.find? doc.body = some container ∧
      let blocks := ({} : Extraction).find container
      let found := Delimiters.find {} (blocks.map Block.string)
      s.Shows doc blocks (found.filter fun x => x.error?.isNone) roots ∧
      s.errors.map (fun failed => (failed.1.math, failed.2)) =
        found.filterMap fun x => x.error?.map fun e => (.text x.math, e) := by
  have hfresh : Session.IsFresh { document := doc, sources := [.tex] } :=
    ⟨.inl rfl, rfl, rfl, rfl, rfl, rfl⟩
  obtain ⟨s, hrender, ⟨D⟩⟩ := render_rendered hdoc hplain hfresh
  obtain ⟨container, blocks, finds, added, doc₁, replaced, shown, hbody, rfl, hsurvey, hlen,
    hfurnished, R, hitems, herrors, -⟩ := D
  have hc := (mem_of_find? hbody).1
  have hfinds : finds = (Delimiters.find {}
      ((({} : Extraction).find container).map Block.string)).map .sighting := by
    refine hsurvey.sorted.eq_of_perm
      (find_keySorted (find_pairwise_precedes {} (nodup_below hdoc.distinct hc))) ?_
    exact hsurvey.perm.trans (.of_eq (by rw [findsOf, List.flatMap_singleton]; rfl))
  subst hfinds
  have hlayout := layout_find hdoc hplain hc
  refine ⟨s, container, added.map label, hrender, hbody, ?_⟩
  intro blocks found
  have hblocks : ({} : Extraction).find container = blocks := rfl
  clear_value blocks
  rw [hblocks] at hlayout hlen hsurvey R hitems herrors
  refine ⟨?_, ?_⟩
  · rw [targetsOf, filter_isRead_map, insertions_targets] at R
    rw [filter_isRead_map, List.length_map] at hlen
    refine ⟨by rw [List.length_map, hlen], hfurnished.nodup_added, fun root hroot => ?_, ?_,
      R.root.trans (congrArg label hfurnished.root),
      fun id hid => (R.shell id (hfurnished.mem_ids hid)).trans (hfurnished.shell? hid),
      fun id hid => ?_⟩
    · obtain ⟨t, ht, rfl⟩ := List.mem_map.1 hroot
      exact hfurnished.not_mem_ids ht
    · rw [hitems, filter_isRead_map, List.map_zipWith, List.zipWith_map_left, List.zipWith_map_right]
      rfl
    · rw [stream, R.kids id (hfurnished.mem_ids hid), hfurnished.kids hid, List.flatMap_assoc,
        List.flatMap_def, List.flatMap_def]
      refine congrArg List.flatten (List.map_congr_left fun c hc' => ?_)
      have hcid := (mem_ids_of_mem_kids hc').1
      rw [R.flatMap_shown (hfurnished.layout hlayout) (swap_targets _ _) (hfurnished.mem_ids hcid),
        hfurnished.seenAfter hcid]
  · rw [herrors, itemsFailed, List.map_filterMap, List.filterMap_map]
    refine List.filterMap_congr fun x _ => ?_
    cases hx : x.error? with
    | none => simp [Find.error?, hx]
    | some e =>
      simp [Find.error?, hx]
      rfl

/-- A paragraph with two pieces of mathematics, of which one goes on after a line break. -/
def Document.twoFormulas : Document :=
  .ofFragments [.build "p" [] [.text "Let $x$ and $y", .build "br" [] [], .text "+1$ be."]]

theorem Document.isPlain_twoFormulas : twoFormulas.IsPlain := by
  rw [IsPlain]
  decide

/-- What is seen in the paragraph. -/
def Sighting.inTurn : List Sighting :=
  [⟨"x", "$", "$", 0, 4, 7, false⟩, ⟨"y\n+1", "$", "$", 0, 12, 18, false⟩]

theorem find_twoFormulas :
    Delimiters.find {} ((({} : Extraction).find twoFormulas.root).map Block.string) =
      Sighting.inTurn := by
  have hstrings : (({} : Extraction).find twoFormulas.root).map Block.string =
      ["Let $x$ and $y\n+1$ be."] := by decide +kernel
  have hopens : (∀ i < 4, Delimiters.opening? {} ("Let $x$ and $y\n+1$ be.".toList.drop i) = none) ∧
      Delimiters.opening? {} "$x$ and $y\n+1$ be.".toList = some (.math ['$'] false, 0) ∧
      (∀ i < 5, Delimiters.opening? {} (" and $y\n+1$ be.".toList.drop i) = none) ∧
      Delimiters.opening? {} "$y\n+1$ be.".toList = some (.math ['$'] false, 0) ∧
      ∀ i < 4, Delimiters.opening? {} (" be.".toList.drop i) = none := by
    simp only [Delimiters.opening?, Delimiters.delimiterAt?, Delimiters.openers_usual]
    decide +kernel
  have hseen : Delimiters.seen? 0 4 ['$'] "x$ and $y\n+1$ be.".toList (.math ['$'] false) =
      some (Sighting.inTurn[0], " and $y\n+1$ be.".toList) := by decide +kernel
  have hseen' : Delimiters.seen? 0 12 ['$'] "y\n+1$ be.".toList (.math ['$'] false) =
      some (Sighting.inTurn[1], " be.".toList) := by decide +kernel
  obtain ⟨hlet, hopen, hand, hopen', hbe⟩ := hopens
  have hscan : Delimiters.Scans {} 0 0 "Let $x$ and $y\n+1$ be.".toList Sighting.inTurn 22 [] :=
    .skip "Let ".toList hlet (.seen hopen hseen (.skip " and ".toList hand
      (.seen hopen' hseen' (.skip " be.".toList (s := []) hbe (.refl 22 [])))))
  rw [hstrings, hscan.find_singleton]

theorem error?_inTurn : ∀ x ∈ Sighting.inTurn, x.error? = none := by
  have htokens : tokenize "x" = .ok [⟨.letter, "x", 0⟩] ∧ tokenize "y\n+1" =
      .ok [⟨.letter, "y", 0⟩, ⟨.other, "+", 2⟩, ⟨.number, "1", 3⟩] := by decide +kernel
  intro x hx
  rcases List.mem_pair.1 hx with rfl | rfl
  · rw [Sighting.error?, readTex_of_runFor 2 htokens.1 rfl rfl]
    rfl
  · rw [Sighting.error?, readTex_of_runFor 4 htokens.2 rfl rfl]
    rfl

theorem render_shows_twoFormulas : (twoFormulas.WellFormed ∧ twoFormulas.IsPlain) ∧
    ∃ s first second, ({ document := twoFormulas, sources := [.tex] } : Session).render = .ok s ∧
      first ≠ second ∧ s.items.map Item.content = [some first, some second] ∧ s.errors = [] ∧
      s.document.stream 1 = "Let ".toList.map .char ++ .place first ::
        (" and ".toList.map .char ++ .place second :: " be.".toList.map .char) := by
  obtain ⟨s, container, roots, hrender, hbody, hshows, herrors⟩ :=
    render_shows twoFormulas (wellFormed_ofFragments _) isPlain_twoFormulas
  obtain rfl : twoFormulas.root = container := Option.some.inj (Eq.trans rfl hbody)
  rw [find_twoFormulas] at hshows herrors
  rw [List.filter_eq_self.2 fun x hx => by rw [error?_inTurn x hx]; rfl] at hshows
  obtain ⟨first, second, rfl⟩ := List.length_eq_two.1 hshows.length
  refine ⟨⟨wellFormed_ofFragments _, isPlain_twoFormulas⟩, s, first, second, hrender, ?_, ?_, ?_, ?_⟩
  · simpa using hshows.distinct
  · have hcontent := congrArg (List.map fun shown => shown.2.1) hshows.items
    rwa [List.map_map] at hcontent
  · rw [List.filterMap_eq_nil_iff.2 fun x hx => by rw [error?_inTurn x hx]; rfl] at herrors
    exact List.map_eq_nil_iff.1 herrors
  · have hblocks : ({} : Extraction).find twoFormulas.root =
        [[⟨2, "Let $x$ and $y"⟩, ⟨3, "\n"⟩, ⟨4, "+1$ be."⟩]] := by decide +kernel
    rw [hshows.streams 1 (by decide), hblocks]
    rfl

end Formulary
