import Formulary.Proofs.Discovery.SourceSpelling

/-! # A discovery is one stable sort

What is found in some containers is what the sources report, container by container and source by
source (`itemsFound`).  However a discovery merges it, in the end the list holds its old items and
what was found in the order of their keys, those of one key in the order in which they came
(`discover_stableSort`).

The strings of a container are extracted once if a source reads strings at all. -/

namespace Formulary

open Formulary.Tree Document

/-! ### What is found -/

/-- The items that a source reports for a container, which has the position `index` among the
others. -/
def Source.itemsIn (doc : Document) (o : Extraction) (index : Nat) (container : Node)
    (source : Source) : Except Fault (List Item) :=
  let visit : Visit := { index, container, items := [] }
  if source.readsStrings then
    (source.sightings ((o.find container).map Block.string)).mapM
      (visit.itemOf source (o.find container))
  else .ok ((source.spots doc container).map (visit.itemOfSpot source))

/-- The items that some sources report for a container, one source after the other. -/
def itemsIn (doc : Document) (o : Extraction) (index : Nat) (container : Node) :
    List Source → Except Fault (List Item)
  | [] => .ok []
  | source :: rest => do
    let first ← source.itemsIn doc o index container
    let others ← itemsIn doc o index container rest
    return first ++ others

/-- The items that some sources report for some containers, one container after the other, of which
the first has the position `index`. -/
def itemsFrom (doc : Document) (o : Extraction) (sources : List Source) (index : Nat) :
    List NodeId → Except Fault (List Item)
  | [] => .ok []
  | id :: rest => do
    let container ← doc.get id
    let first ← itemsIn doc o index container sources
    let others ← itemsFrom doc o sources (index + 1) rest
    return first ++ others

/-- The items that some sources report for some containers. -/
def itemsFound (doc : Document) (o : Extraction) (sources : List Source) (containers : List NodeId) :
    Except Fault (List Item) := itemsFrom doc o sources 0 containers

theorem itemsIn_elements {doc : Document} {o : Extraction} {index : Nat} {container : Node}
    {source : Source} (hformat : source.format = .mathml) :
    itemsIn doc o index container [source] = .ok ((Source.elements doc container).map
      fun (id, display) => ({ index, container, items := [] } : Visit).itemOfElement source id
        display) := by
  have hreads : ¬source.readsStrings = true := by simp [Source.readsStrings, hformat]
  have hspots : source.spots doc container =
      (Source.elements doc container).map fun (id, display) => .ofElement id display := by
    simp only [Source.spots, hformat]
  rw [itemsIn, Source.itemsIn, if_neg hreads, hspots, List.map_map]
  exact congrArg Except.ok (List.append_nil _)

/-- What the source sees is in the strings that it is given. -/
def Source.IsFaithful (source : Source) (strings : List String) : Prop :=
  ∀ x ∈ source.sightings strings, (Text.atIndex? strings x.string).isSome

section

variable {doc : Document} {o : Extraction} {container : Node} {source : Source}
  {sources : List Source}

/-- TeX between delimiters is seen where it is. -/
theorem Source.isFaithful_of_not_isForeign (h : ¬source.IsForeign) (strings : List String) :
    source.IsFaithful strings := by
  intro x hx
  rw [sightings] at hx
  split at hx
  · obtain ⟨j, s, hget, -, hstring, -⟩ := Delimiters.find_spec hx
    rw [hstring, Text.atIndex?_natCast hget]
    rfl
  · rename_i name find read hformat
    exact absurd ⟨name, find, read, hformat⟩ h
  · exact absurd hx List.not_mem_nil
  · exact absurd hx List.not_mem_nil

theorem Text.atIndex?_map {α β : Type} (f : α → β) (xs : List α) (n : Int) :
    Text.atIndex? (xs.map f) n = (Text.atIndex? xs n).map f := by
  rw [atIndex?, atIndex?, List.length_map]
  cases indexIn? xs.length n with
  | none => rfl
  | some index => exact List.getElem?_map

theorem Source.exists_itemsIn (doc : Document) (index : Nat)
    (h : source.IsFaithful ((o.find container).map Block.string)) :
    ∃ found, source.itemsIn doc o index container = .ok found := by
  rw [itemsIn]
  split
  · have hitems : ∀ x ∈ source.sightings ((o.find container).map Block.string), ∃ item,
        Visit.itemOf { index, container, items := [] } source (o.find container) x = .ok item := by
      intro x hx
      have hstring := h x hx
      rw [Text.atIndex?_map, Option.isSome_map] at hstring
      obtain ⟨block, hblock⟩ := Option.isSome_iff_exists.1 hstring
      exact ⟨_, by rw [Visit.itemOf, hblock]⟩
    choose! item hitem using hitems
    exact ⟨_, mapM_eq_ok hitem⟩
  · exact ⟨_, rfl⟩

theorem exists_itemsIn (doc : Document) (index : Nat)
    (h : ∀ source ∈ sources, source.IsFaithful ((o.find container).map Block.string)) :
    ∃ found, itemsIn doc o index container sources = .ok found := by
  induction sources with
  | nil => exact ⟨[], rfl⟩
  | cons source rest ih =>
    obtain ⟨first, hfirst⟩ := Source.exists_itemsIn doc index (h source (List.mem_cons_self ..))
    obtain ⟨others, hothers⟩ := ih fun other ho => h other (List.mem_cons_of_mem _ ho)
    exact ⟨first ++ others, by rw [itemsIn, hfirst, hothers]; rfl⟩

/-- Faithful sources find something in all containers that are there. -/
theorem exists_itemsFrom (index : Nat) {containers : List NodeId}
    (h : ∀ id ∈ containers, ∃ container, doc.find? id = some container ∧
      ∀ source ∈ sources, source.IsFaithful ((o.find container).map Block.string)) :
    ∃ found, itemsFrom doc o sources index containers = .ok found := by
  induction containers generalizing index with
  | nil => exact ⟨[], rfl⟩
  | cons id rest ih =>
    obtain ⟨container, hc, hfaithful⟩ := h id (List.mem_cons_self ..)
    obtain ⟨first, hfirst⟩ := exists_itemsIn doc index hfaithful
    obtain ⟨others, hothers⟩ := ih (index + 1) fun other ho =>
      h other (List.mem_cons_of_mem _ ho)
    refine ⟨first ++ others, ?_⟩
    simp only [itemsFrom, WellFormed.get_eq hc, hfirst, hothers, bind, Except.bind, pure, Except.pure]

/-! ### Merging it all -/

theorem mergeByKey_sortByKey {α : Type} {key : α → Key} (things incoming : List α) :
    mergeByKey key (sortByKey key things) incoming = sortByKey key (things ++ incoming) :=
  ((sortByKey_isStableSort things).merge incoming).unique (sortByKey_isStableSort _)

/-- The extraction that a visit has to make if it is to have the strings. -/
def Visit.missing (visit : Visit) (reads : Bool) : List NodeId :=
  if reads && visit.blocks.isNone then [visit.container.label] else []

theorem Visit.strings_eq {visit : Visit}
    (h : visit.blocks.getD (o.find visit.container) = o.find visit.container) :
    visit.strings o = (o.find visit.container, { visit with
      blocks := some (o.find visit.container)
      extracted := visit.extracted ++ visit.missing true }) := by
  cases hblocks : visit.blocks with
  | none => simp [strings, missing, hblocks]
  | some blocks =>
    have hstrings : visit.strings o = (blocks, visit) := by rw [strings, hblocks]
    have hmissing : visit.missing true = [] := by simp [missing, hblocks]
    rw [hblocks, Option.getD_some] at h
    rw [hstrings, hmissing, List.append_nil, ← h, ← hblocks]

/-- One source adds what it reports, and has the strings extracted if it reads them and they are not
at hand. -/
theorem Visit.ask_eq {visit : Visit} (h : visit.blocks.getD (o.find visit.container) =
      o.find visit.container) (source : Source) :
    visit.ask doc o source = (source.itemsIn doc o visit.index visit.container).map fun found =>
      { visit with
        blocks := if source.readsStrings then some (o.find visit.container) else visit.blocks
        items := mergeByKey Item.key visit.items found
        extracted := visit.extracted ++ visit.missing source.readsStrings } := by
  rw [ask, Source.itemsIn]
  cases source.readsStrings with
  | true =>
    have hitem : Visit.itemOf { visit with
        blocks := some (o.find visit.container)
        extracted := visit.extracted ++ visit.missing true } source = Visit.itemOf
        { index := visit.index, container := visit.container, items := [] } source := rfl
    simp only [if_true, strings_eq h, hitem]
    cases (source.sightings ((o.find visit.container).map Block.string)).mapM
      (Visit.itemOf { index := visit.index, container := visit.container, items := [] } source
        (o.find visit.container)) <;> rfl
  | false =>
    have hspot : visit.itemOfSpot source = Visit.itemOfSpot
        { index := visit.index, container := visit.container, items := [] } source := rfl
    simp [hspot, missing, Except.map]

/-- The sources add what they report, one after the other, and the strings are extracted once. -/
theorem Visit.askAll_eq (visit : Visit) {things : List Item}
    (h : visit.blocks.getD (o.find visit.container) = o.find visit.container)
    (hitems : visit.items = sortByKey Item.key things) (sources : List Source) :
    visit.askAll doc o sources =
      (itemsIn doc o visit.index visit.container sources).map fun found =>
        { visit with
          blocks := if sources.any Source.readsStrings then some (o.find visit.container)
            else visit.blocks
          items := sortByKey Item.key (things ++ found)
          extracted := visit.extracted ++ visit.missing (sources.any Source.readsStrings) } := by
  induction sources generalizing visit things with
  | nil => simp [askAll, itemsIn, missing, Except.map, ← hitems]
  | cons source rest ih =>
    rw [askAll, itemsIn, ask_eq h]
    cases source.itemsIn doc o visit.index visit.container with
    | error fault => rfl
    | ok first =>
      have hmerged : mergeByKey Item.key visit.items first = sortByKey Item.key (things ++ first) := by
        rw [hitems, mergeByKey_sortByKey]
      show Visit.askAll doc o _ rest = _
      rw [ih _ _ hmerged]
      · cases itemsIn doc o visit.index visit.container rest with
        | error fault => rfl
        | ok others =>
          cases hreads : source.readsStrings <;>
            simp [missing, Except.map, bind, Except.bind, pure, Except.pure, hreads]
      · cases source.readsStrings with
        | true => rfl
        | false => exact h

/-- The containers add what is found in them, one after the other. -/
theorem discoverFrom_eq (index : Nat) {survey : Survey} {things : List Item}
    (hitems : survey.items = sortByKey Item.key things) (containers : List NodeId) :
    discoverFrom doc o sources index survey containers =
      (itemsFrom doc o sources index containers).map fun found =>
        { items := sortByKey Item.key (things ++ found)
          extracted := survey.extracted ++
            if sources.any Source.readsStrings then containers else [] } := by
  induction containers generalizing index survey things with
  | nil => simp [discoverFrom, itemsFrom, Except.map, ← hitems]
  | cons id rest ih =>
    rw [discoverFrom, itemsFrom]
    cases hget : doc.get id with
    | error fault => rfl
    | ok container =>
      have hlabel : container.label = id := (mem_of_find? (find?_of_get hget)).2
      show (Visit.askAll doc o
        { index, container, items := survey.items, extracted := survey.extracted } sources >>= _) = _
      rw [Visit.askAll_eq
        { index, container, items := survey.items, extracted := survey.extracted } rfl hitems]
      cases hfirst : itemsIn doc o index container sources with
      | error fault => simp [hfirst, Except.map, bind, Except.bind]
      | ok first =>
        show discoverFrom doc o sources (index + 1) _ rest = _
        rw [ih (index + 1) rfl]
        cases itemsFrom doc o sources (index + 1) rest with
        | error fault => simp [hfirst, Except.map, bind, Except.bind]
        | ok others =>
          cases sources.any Source.readsStrings <;>
            simp [hfirst, hlabel, Visit.missing, Except.map, bind, Except.bind, pure, Except.pure]

theorem exists_of_mem_itemsIn {index : Nat} {found : List Item}
    (hfound : itemsIn doc o index container sources = .ok found) {item : Item} (hitem : item ∈ found) :
    ∃ source ∈ sources, ∃ own, source.itemsIn doc o index container = .ok own ∧ item ∈ own := by
  induction sources generalizing found with
  | nil =>
    cases hfound
    exact absurd hitem List.not_mem_nil
  | cons source rest ih =>
    obtain ⟨own, hown, hfound⟩ := Reader.exists_ok_of_bind hfound
    obtain ⟨others, hothers, hfound⟩ := Reader.exists_ok_of_bind hfound
    cases hfound
    rcases List.mem_append.1 hitem with hitem | hitem
    · exact ⟨source, List.mem_cons_self .., own, hown, hitem⟩
    · obtain ⟨other, hmem, found⟩ := ih hothers hitem
      exact ⟨other, List.mem_cons_of_mem _ hmem, found⟩

theorem exists_of_itemsFrom_cons {index : Nat} {id : NodeId} {rest : List NodeId} {found : List Item}
    (hfound : itemsFrom doc o sources index (id :: rest) = .ok found) :
    ∃ container first others, doc.find? id = some container ∧
      itemsIn doc o index container sources = .ok first ∧
      itemsFrom doc o sources (index + 1) rest = .ok others ∧ found = first ++ others := by
  obtain ⟨container, hget, hfound⟩ := Reader.exists_ok_of_bind hfound
  obtain ⟨first, hfirst, hfound⟩ := Reader.exists_ok_of_bind hfound
  obtain ⟨others, hothers, hfound⟩ := Reader.exists_ok_of_bind hfound
  cases hfound
  exact ⟨container, first, others, Document.find?_of_get hget, hfirst, hothers, rfl⟩

theorem exists_of_mem_itemsFrom {index : Nat} {containers : List NodeId}
    {found : List Item} (hfound : itemsFrom doc o sources index containers = .ok found)
    {item : Item} (hitem : item ∈ found) :
    ∃ (i : Nat) (id : NodeId) (container : Node), containers[i]? = some id ∧
      doc.find? id = some container ∧ ∃ source ∈ sources, ∃ own,
        source.itemsIn doc o (index + i) container = .ok own ∧ item ∈ own := by
  induction containers generalizing index found with
  | nil =>
    cases hfound
    exact absurd hitem List.not_mem_nil
  | cons id rest ih =>
    obtain ⟨container, first, others, hfind, hfirst, hothers, rfl⟩ :=
      exists_of_itemsFrom_cons hfound
    rcases List.mem_append.1 hitem with hitem | hitem
    · exact ⟨0, id, container, rfl, hfind, exists_of_mem_itemsIn hfirst hitem⟩
    · obtain ⟨i, id', container', hi, hfind, source, hsource, own, hown, hmem⟩ := ih hothers hitem
      refine ⟨i + 1, id', container', hi, hfind, source, hsource, own, ?_, hmem⟩
      rw [← hown]
      congr 1
      omega

/-- What a discovery that begins with nothing leaves is what is found, in the order of keys. -/
theorem discover_found {containers : List NodeId} {survey : Survey}
    (hrun : discover doc o containers sources [] = .ok survey) :
    ∃ found, itemsFound doc o sources containers = .ok found ∧
      survey.items = sortByKey Item.key found := by
  have hself : IsStableSort Item.key [] [] := ⟨.nil, fun _ => rfl⟩
  have hsorted : [] = sortByKey Item.key [] := hself.unique (sortByKey_isStableSort [])
  rw [discover, @discoverFrom_eq doc o sources 0 { items := [] } [] hsorted] at hrun
  cases hfound : itemsFrom doc o sources 0 containers with
  | error fault =>
    rw [hfound] at hrun
    cases hrun
  | ok found =>
    rw [hfound] at hrun
    cases hrun
    exact ⟨found, hfound, rfl⟩

end

/-- A list in the order of keys is left by a discovery as the one stable sort of its items and of
what is found: nothing is lost, nothing comes twice, and those of one key keep their order.  A
discovery fails only as finding the items fails, which it does not where the containers are places
of the document and the sources see mathematics in strings that are there, as TeX does and what
looks at places.  The strings are extracted of each container in turn if some source reads strings,
once however many there are, and never otherwise. -/
theorem discover_stableSort (doc : Document) (o : Extraction) (containers : List NodeId)
    (sources : List Source) (items : List Item)
    (hitems : items.Pairwise fun a b => a.key.le b.key = true) :
    (∀ found, itemsFound doc o sources containers = .ok found →
      ∃ survey, discover doc o containers sources items = .ok survey ∧
        survey.items = sortByKey Item.key (items ++ found) ∧
        IsStableSort Item.key (items ++ found) survey.items ∧
        survey.items.Perm (items ++ found) ∧
        survey.extracted = (if sources.any Source.readsStrings then containers else []) ∧
        survey.extractions = if sources.any Source.readsStrings then containers.length else 0) ∧
    (∀ fault, itemsFound doc o sources containers = .error fault →
      discover doc o containers sources items = .error fault) ∧
    ((∀ id ∈ containers, ∃ container, doc.find? id = some container ∧ ∀ source ∈ sources,
        source.IsForeign → source.IsFaithful ((o.find container).map Block.string)) →
      ∃ found, itemsFound doc o sources containers = .ok found) := by
  have hself : IsStableSort Item.key items items := ⟨hitems, fun _ => rfl⟩
  have hsorted : items = sortByKey Item.key items := hself.unique (sortByKey_isStableSort items)
  have heq := @discoverFrom_eq doc o sources 0 { items } items hsorted containers
  refine ⟨fun found hfound => ?_, fun fault hfault => ?_, fun hcontainers => ?_⟩
  · rw [itemsFound] at hfound
    rw [hfound] at heq
    have hsort : IsStableSort Item.key (items ++ found) (sortByKey Item.key (items ++ found)) :=
      sortByKey_isStableSort _
    refine ⟨_, heq, rfl, hsort, hsort.perm, rfl, ?_⟩
    rw [Survey.extractions, List.nil_append]
    split <;> rfl
  · rw [itemsFound] at hfault
    rw [hfault] at heq
    exact heq
  · refine exists_itemsFrom 0 fun id hid => ?_
    obtain ⟨container, hc, hfaithful⟩ := hcontainers id hid
    refine ⟨container, hc, fun source hsource => ?_⟩
    by_cases hforeign : source.IsForeign
    · exact hfaithful source hsource hforeign
    · exact Source.isFaithful_of_not_isForeign hforeign _

/-- Two items in order: one with the key of the first formula of `brokenFormula`, and one that comes
after all that is found there. -/
def Document.earlierItems : List Item :=
  [[0, 2, 4], [7]].map fun key =>
    { math := .text "u", source := .tex, display := false, start := ⟨none, 0, ""⟩
      stop := ⟨none, 0, ""⟩, key }

/-- Every line break, as a piece of mathematics of its own. -/
def Source.lineBreaks : Source where
  format := .other "break"
    (.places fun _ container =>
      (container.descendants "br").map fun node => Spot.ofElement node.label false)
    fun _ _ => .ok (.node "mspace" [] [] none)

/-- The strings are extracted twice, once for each time that the container is given, and not once
more for each of the two sources that read them. -/
theorem discover_stableSort_brokenFormula : ∃ found survey,
    itemsFound brokenFormula {} [.lineBreaks, .tex, .mathml, .tex]
      [brokenFormula.body, brokenFormula.body] = .ok found ∧
    discover brokenFormula {} [brokenFormula.body, brokenFormula.body]
      [.lineBreaks, .tex, .mathml, .tex] earlierItems = .ok survey ∧
    IsStableSort Item.key (earlierItems ++ found) survey.items ∧
    survey.extracted = [brokenFormula.body, brokenFormula.body] ∧ survey.extractions = 2 := by
  obtain ⟨hfinds, -, hsucceeds⟩ := discover_stableSort brokenFormula {}
    [brokenFormula.body, brokenFormula.body] [.lineBreaks, .tex, .mathml, .tex] earlierItems
    (by decide)
  obtain ⟨container, hc⟩ := exists_body brokenFormula
  obtain ⟨found, hfound⟩ := hsucceeds fun id hid => by
    rw [(List.mem_pair.1 hid).elim (fun h => h) fun h => h]
    refine ⟨container, hc, fun source hsource ⟨name, find, read, hformat⟩ => ?_⟩
    simp only [List.mem_cons, List.not_mem_nil, or_false] at hsource
    rcases hsource with rfl | rfl | rfl | rfl <;> cases hformat
  obtain ⟨survey, hsurvey, -, hsort, -, hextracted, hextractions⟩ := hfinds found hfound
  exact ⟨found, survey, hfound, hsurvey, hsort, hextracted, hextractions⟩

end Formulary
