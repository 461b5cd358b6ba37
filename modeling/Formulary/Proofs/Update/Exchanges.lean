import Formulary.Proofs.Update.Rendering

/-! # Exchanging the typeset form of an item and its source

To restore the source of an item is to put one place where another one stands, and so is the
update that follows, which finds the source in one place.  `Document.Swapped` says what a sequence
of such exchanges leaves: in every list of children each place has given way to another one
(`Session.current`), and nothing else is changed.

`Item.Seated` is an item whose typeset form is in the document, `Item.Unseated` one whose source
is there again.  Restoring leads from the first to the second (`Seated.exists_restored`) and
updating back (`Unseated.exists_update`). -/

namespace Formulary

open Formulary.Tree Document

namespace Document

/-- The document `doc'` is `doc` with other places in the place of some children: the second place
of each pair where the first one was, the first pair first. -/
structure Swapped (doc doc' : Document) (pairs : List Replacement) : Prop where
  wellFormed : doc'.WellFormed
  root : doc'.root.label = doc.root.label
  fresh : doc.fresh ≤ doc'.fresh
  ids : ∀ id ∈ doc.ids, id ∈ doc'.ids
  shell : ∀ id ∈ doc.ids, doc'.shell? id = doc.shell? id
  kids : ∀ q ∈ doc.ids, doc'.kids q = (doc.kids q).map (Session.current pairs)
  added : ∀ id ∈ doc'.ids, id ∉ doc.ids → doc.fresh ≤ id ∧ doc'.kids id = []

section

variable {doc doc' doc'' : Document} {pairs pairs' : List Replacement}

theorem Swapped.refl (h : doc.WellFormed) : doc.Swapped doc [] where
  wellFormed := h
  root := rfl
  fresh := Nat.le_refl _
  ids := fun _ hid => hid
  shell := fun _ _ => rfl
  kids := fun q _ => (List.map_id'' (fun _ => rfl) (doc.kids q)).symm
  added := fun _ hid hnot => absurd hid hnot

theorem current_cons (pair : Replacement) (rest : List Replacement) (id : NodeId) :
    Session.current (pair :: rest) id = Session.current rest (Session.current [pair] id) := rfl

theorem current_eq_or (pairs : List Replacement) (id : NodeId) :
    Session.current pairs id = id ∨ Session.current pairs id ∈ pairs.map Prod.snd := by
  induction pairs generalizing id with
  | nil => exact .inl rfl
  | cons pair rest ih =>
    rw [current_cons, List.map_cons]
    by_cases h : id = pair.1
    · subst h
      rw [Item.current_singleton_self]
      rcases ih pair.2 with heq | hmem
      · exact .inr (heq.symm ▸ List.mem_cons_self ..)
      · exact .inr (List.mem_cons_of_mem _ hmem)
    · rw [Item.current_singleton_of_ne h]
      exact (ih id).imp_right (List.mem_cons_of_mem _)

theorem current_of_not_mem {id : NodeId} (h : id ∉ pairs.map Prod.fst) :
    Session.current pairs id = id := by
  induction pairs with
  | nil => rfl
  | cons pair rest ih =>
    rw [List.map_cons, List.mem_cons, not_or] at h
    rw [current_cons, Item.current_singleton_of_ne h.1, ih h.2]

/-- Every exchange is taken back by the opposite one, in the opposite order. -/
theorem current_swap_reverse (hnodup : (pairs.map Prod.snd).Nodup) {id : NodeId}
    (h : id ∉ pairs.map Prod.snd) :
    Session.current (pairs.map Prod.swap).reverse (Session.current pairs id) = id := by
  induction pairs generalizing id with
  | nil => rfl
  | cons pair rest ih =>
    rw [List.map_cons, List.nodup_cons] at hnodup
    rw [List.map_cons, List.mem_cons, not_or] at h
    rw [List.map_cons, List.reverse_cons, Item.current_append, current_cons pair]
    by_cases hid : id = pair.1
    · subst hid
      rw [Item.current_singleton_self, ih hnodup.2 hnodup.1]
      exact Item.current_singleton_self _ _
    · rw [Item.current_singleton_of_ne hid, ih hnodup.2 h.2]
      exact Item.current_singleton_of_ne h.1 _

theorem Swapped.trans (h : doc.Swapped doc' pairs) (h' : doc'.Swapped doc'' pairs') :
    doc.Swapped doc'' (pairs ++ pairs') where
  wellFormed := h'.wellFormed
  root := h'.root.trans h.root
  fresh := Nat.le_trans h.fresh h'.fresh
  ids := fun id hid => h'.ids id (h.ids id hid)
  shell := fun id hid => (h'.shell id (h.ids id hid)).trans (h.shell id hid)
  kids := fun q hq => by
    rw [h'.kids q (h.ids q hq), h.kids q hq, List.map_map]
    exact List.map_congr_left fun id _ => (Item.current_append _ _ id).symm
  added := fun id hid hnot => by
    by_cases hmid : id ∈ doc'.ids
    · obtain ⟨hle, hkids⟩ := h.added id hmid hnot
      exact ⟨hle, by rw [h'.kids id hmid, hkids, List.map_nil]⟩
    · obtain ⟨hle, hkids⟩ := h'.added id hid hmid
      exact ⟨Nat.le_trans h.fresh hle, hkids⟩

theorem Swapped.undo (h : doc.Swapped doc' pairs)
    (h' : doc'.Swapped doc'' (pairs.map Prod.swap).reverse) (hnodup : (pairs.map Prod.snd).Nodup)
    (hunused : ∀ x ∈ pairs.map Prod.snd, ∀ q, x ∉ doc.kids q) : doc.Swapped doc'' [] where
  wellFormed := h'.wellFormed
  root := (h.trans h').root
  fresh := (h.trans h').fresh
  ids := (h.trans h').ids
  shell := (h.trans h').shell
  kids := fun q hq => by
    rw [(h.trans h').kids q hq]
    refine List.map_congr_left fun c hc => ?_
    rw [Item.current_append]
    exact current_swap_reverse hnodup fun hmem => hunused c hmem q hc
  added := (h.trans h').added

theorem Reshaped.swapped (hdoc : doc.WellFormed) {p r x : NodeId} {before after : List NodeId}
    (hkids : doc.kids p = before ++ r :: after)
    (h : doc.Reshaped doc' p (before ++ x :: after)) : doc.Swapped doc' [(r, x)] where
  wellFormed := h.wellFormed
  root := h.root
  fresh := h.fresh
  ids := h.ids
  shell := h.shell
  kids := fun q hq => by
    have hother : ∀ ids : List NodeId, r ∉ ids → ids.map (Session.current [(r, x)]) = ids :=
      fun ids hr => by
        have hsame : ∀ id ∈ ids, Session.current [(r, x)] id = id := fun id hid => by
          refine Item.current_singleton_of_ne ?_ x
          rintro rfl
          exact hr hid
        rw [List.map_congr_left hsame, List.map_id']
    by_cases hqp : q = p
    · subst hqp
      have hnodup := hkids ▸ hdoc.nodup_kids q
      rw [List.nodup_append, List.nodup_cons] at hnodup
      rw [h.here, hkids, List.map_append, List.map_cons, Item.current_singleton_self,
        hother before fun hr => hnodup.2.2 r hr r (List.mem_cons_self ..) rfl,
        hother after hnodup.2.1.1]
    · rw [h.elsewhere q hq hqp, hother]
      intro hr
      exact hqp (hdoc.parent_unique hr (by simp [hkids]))
  added := fun id hid hnot => h.added id hid hnot

theorem Swapped.text? (h : doc.Swapped doc' pairs) {id : NodeId} (hid : id ∈ doc.ids) :
    doc'.text? id = doc.text? id := by
  rw [Document.text?, Document.text?, h.shell id hid]

theorem Swapped.mem_kids (h : doc.Swapped doc' pairs) {c p : NodeId} (hc : c ∈ doc.kids p)
    (hnot : c ∉ pairs.map Prod.fst) : c ∈ doc'.kids p := by
  rw [h.kids p (mem_ids_of_mem_kids hc).2]
  exact List.mem_map.2 ⟨c, hc, current_of_not_mem hnot⟩

theorem Swapped.isLoose (h : doc.Swapped doc' pairs) (hdoc : doc.WellFormed) {c : NodeId}
    (hc : doc.IsLoose c) (hnot : c ∉ pairs.map Prod.snd) : doc'.IsLoose c := by
  obtain ⟨hid, hroot, hkids⟩ := hdoc.isLoose_iff.1 hc
  refine h.wellFormed.isLoose_iff.2 ⟨h.ids c hid, h.root ▸ hroot, fun q hq => ?_⟩
  by_cases hmem : q ∈ doc.ids
  · rw [h.kids q hmem] at hq
    obtain ⟨d, hd, hcur⟩ := List.mem_map.1 hq
    rcases current_eq_or pairs d with heq | hin
    · exact hkids q (heq.symm.trans hcur ▸ hd)
    · exact hnot (hcur ▸ hin)
  · rw [(h.added q (mem_ids_of_mem_kids hq).2 hmem).2] at hq
    cases hq

theorem Reshaped.isLoose_of_exchanged (hdoc : doc.WellFormed) {p r x : NodeId}
    {before after : List NodeId} (hkids : doc.kids p = before ++ r :: after)
    (h : doc.Reshaped doc' p (before ++ x :: after)) (hne : r ≠ x) : doc'.IsLoose r := by
  have hr : r ∈ doc.kids p := by simp [hkids]
  have hnodup := hkids ▸ hdoc.nodup_kids p
  rw [List.nodup_append, List.nodup_cons] at hnodup
  refine h.wellFormed.isLoose_iff.2 ⟨h.ids r (mem_ids_of_mem_kids hr).1, fun heq => ?_,
    fun q hq => ?_⟩
  · rw [h.root] at heq
    exact hdoc.root_not_mem_kids p (heq ▸ hr)
  · by_cases hqp : q = p
    · subst hqp
      rw [h.here, List.mem_append, List.mem_cons] at hq
      rcases hq with hq | hq | hq
      · exact hnodup.2.2 r hq r (List.mem_cons_self ..) rfl
      · exact hne hq
      · exact hnodup.2.1.1 hq
    · by_cases hmem : q ∈ doc.ids
      · rw [h.elsewhere q hmem hqp] at hq
        exact hqp (hdoc.parent_unique hq hr)
      · rw [(h.added q (mem_ids_of_mem_kids hq).2 hmem).2] at hq
        cases hq

theorem create_text_reshaped (h : doc.WellFormed) {p : NodeId} (hp : p ∈ doc.ids) (s : String) :
    (doc.create (.text s)).1 = doc.fresh ∧
      doc.Reshaped (doc.create (.text s)).2 p (doc.kids p) ∧
      (doc.create (.text s)).2.IsLoose doc.fresh ∧
      (doc.create (.text s)).2.text? doc.fresh = some s := by
  obtain ⟨hlabel, hrev, hwf⟩ := create_revised h (.text s)
  have hadded : ∀ e ∈ Tree.entries [((Fragment.text s).plant doc.fresh).1],
      e = ⟨doc.fresh, .string () .text s, []⟩ := fun e he => by
    simpa [Fragment.text, Fragment.plant_string, Tree.entries_cons, entry, label, shell, children]
      using he
  have hself : (⟨doc.fresh, .string () .text s, []⟩ : Entry) ∈
      Tree.entries [((Fragment.text s).plant doc.fresh).1] := by
    simp [Fragment.text, Fragment.plant_string, Tree.entries_cons, entry, label, shell, children]
  refine ⟨hlabel, ⟨hwf, hrev.root, hrev.fresh, fun id hid => hrev.mem_ids_iff.2 (.inl hid),
    fun id hid => hrev.shell? h hwf hid, fun q hq _ => hrev.kids h hwf hq, hrev.kids h hwf hp,
    fun id hid hnot => ?_⟩, ?_, text?_eq_some.2 (hrev.added_entry hwf hself).1⟩
  · obtain ⟨e, he, rfl⟩ := List.mem_map.1 ((hrev.mem_ids_iff.1 hid).resolve_left hnot)
    rw [(hrev.added_entry hwf he).2, hadded e he]
    exact ⟨Nat.le_refl _, rfl⟩
  · exact List.mem_map.2 ⟨_, List.mem_append_right _ (List.mem_singleton_self _), rfl⟩

/-- With nothing exchanged the document is as it was. -/
theorem Swapped.root_eq (h : doc.Swapped doc' []) (hdoc : doc.WellFormed) :
    doc'.root = doc.root := by
  have hroot : doc.root ∈ doc.nodes := mem_subtreesAll_of_mem (List.mem_cons_self ..)
  have hfind : doc'.find? doc.root.label = some doc.root := by
    refine find?_eq_of_forall hdoc h.wellFormed hroot fun s hs => ?_
    have hid : s.label ∈ doc.ids := List.mem_map_of_mem (subtreesAll_trans hs hroot)
    exact ⟨h.shell _ hid, (h.kids _ hid).trans (List.map_id'' (fun _ => rfl) _)⟩
  rw [← h.root, h.wellFormed.find?_label (mem_subtreesAll_of_mem (List.mem_cons_self ..))] at hfind
  exact Option.some.inj hfind

end

end Document

/-! ### Items in the document -/

namespace Item

/-- The text of an item between its delimiters, if it is a text. -/
def spelling? (item : Item) : Option String :=
  match item.math with
  | .text s => some (item.start.delimiter ++ s ++ item.stop.delimiter)
  | .node _ => none

/-- The offset at which the source of an item ends in the place that holds it. -/
def reach (item : Item) : Int :=
  match item.spelling? with
  | some s => s.length
  | none => 0

/-- The item with its source in the place `x` of the document. -/
def restored (item : Item) (x : NodeId) : Item :=
  { item with
    start := ⟨some x, 0, item.start.delimiter⟩
    stop := ⟨some x, item.reach, item.stop.delimiter⟩
    stage := .typeset }

/-- The place `x` is the source of an item. -/
def HasSource (doc : Document) (item : Item) (x : NodeId) : Prop :=
  match item.math with
  | .text _ => doc.text? x = item.spelling?
  | .node m => x = m

/-- What stands for an item can be put among the children of `p`. -/
structure Fits (doc : Document) (rank : NodeId → Nat) (item : Item) (p : NodeId) : Prop where
  fresh : ∀ id, doc.fresh ≤ id → rank p < rank id
  element : ∀ m, item.math = .node m → rank p < rank m

/-- The item says that its typeset form `root` is in the document. -/
structure Names (item : Item) (root : NodeId) : Prop where
  stage : item.stage = .inserted
  content : item.content = some root
  start : item.start = ⟨some root, 0, item.start.delimiter⟩
  stop : item.stop = ⟨some root, 0, item.stop.delimiter⟩
  reads : item.source.readsStrings = item.spelling?.isSome

/-- The typeset form `root` of an item is in the document, and its source, if it is an element,
beside it. -/
structure Seated (doc : Document) (rank : NodeId → Nat) (item : Item) (root : NodeId) : Prop
    extends item.Names root where
  host : ∃ p, root ∈ doc.kids p ∧ item.Fits doc rank p
  loose : ∀ m, item.math = .node m → doc.IsLoose m

/-- The source of an item is in the place `x` of the document, and its typeset form `root`
beside it. -/
structure Unseated (doc : Document) (rank : NodeId → Nat) (item : Item) (root x : NodeId) :
    Prop where
  host : ∃ p, x ∈ doc.kids p ∧ rank p < rank root ∧ item.Fits doc rank p
  loose : doc.IsLoose root
  source : match item.math with
    | .text _ => doc.text? x = item.spelling?
    | .node m => x = m

section

variable {doc doc' : Document} {rank : NodeId → Nat} {item : Item} {p root x : NodeId}

theorem Names.restored_inserted (h : item.Names root) (x : NodeId) :
    (item.restored x).inserted root = item := by
  obtain ⟨math, source, display, start, stop, key, formula, content, stage⟩ := item
  have hstage : stage = .inserted := h.stage
  have hstart : start = ⟨some root, 0, start.delimiter⟩ := h.start
  have hstop : stop = ⟨some root, 0, stop.delimiter⟩ := h.stop
  subst hstage
  rw [inserted, restored, ← hstart, ← hstop]

theorem Fits.swapped {pairs : List Replacement} (h : item.Fits doc rank p)
    (hswapped : doc.Swapped doc' pairs) : item.Fits doc' rank p :=
  ⟨fun id hid => h.fresh id (Nat.le_trans hswapped.fresh hid), h.element⟩

theorem Seated.swapped {pairs : List Replacement} (h : Seated doc rank item root)
    (hdoc : doc.WellFormed) (hswapped : doc.Swapped doc' pairs)
    (hroot : root ∉ pairs.map Prod.fst)
    (helement : ∀ m, item.math = .node m → m ∉ pairs.map Prod.snd) :
    Seated doc' rank item root where
  toNames := h.toNames
  host := by
    obtain ⟨p, hp, hfits⟩ := h.host
    exact ⟨p, hswapped.mem_kids hp hroot, hfits.swapped hswapped⟩
  loose := fun m hm => hswapped.isLoose hdoc (h.loose m hm) (helement m hm)

theorem HasSource.swapped {pairs : List Replacement} (h : item.HasSource doc x)
    (hswapped : doc.Swapped doc' pairs) (hx : x ∈ doc.ids) : item.HasSource doc' x := by
  rw [HasSource] at h ⊢
  revert h
  cases item.math with
  | text s => exact (hswapped.text? hx).trans
  | node m => exact id

theorem Unseated.swapped {pairs : List Replacement} (h : Unseated doc rank item root x)
    (hdoc : doc.WellFormed) (hswapped : doc.Swapped doc' pairs) (hx : x ∉ pairs.map Prod.fst)
    (hroot : root ∉ pairs.map Prod.snd) : Unseated doc' rank item root x where
  host := by
    obtain ⟨p, hp, hlt, hfits⟩ := h.host
    exact ⟨p, hswapped.mem_kids hp hx, hlt, hfits.swapped hswapped⟩
  loose := hswapped.isLoose hdoc h.loose hroot
  source := by
    obtain ⟨p, hp, -⟩ := h.host
    exact HasSource.swapped h.source hswapped (mem_ids_of_mem_kids hp).1

/-! ### Restoring one item -/

theorem Names.exists_source (h : item.Names root) (hdoc : doc.WellFormed) (hp : p ∈ doc.ids)
    (helement : ∀ m, item.math = .node m → doc.IsLoose m ∧ doc.Apart p m) :
    ∃ doc' x, item.sourceNode doc = .ok (doc', x, item.reach) ∧
      doc.Reshaped doc' p (doc.kids p) ∧ doc'.IsLoose x ∧ doc'.Apart p x ∧
      (∀ q, x ∉ doc.kids q) ∧ (x = doc.fresh ∨ item.math = .node x) ∧
      item.HasSource doc' x := by
  have hreads := h.reads
  cases hmath : item.math with
  | text s =>
    have hspelling : item.spelling? =
        some (item.start.delimiter ++ s ++ item.stop.delimiter) := by
      rw [spelling?, hmath]
    rw [hspelling] at hreads
    obtain ⟨hcreate, hres, hloose, htext⟩ := create_text_reshaped hdoc hp
      (item.start.delimiter ++ s ++ item.stop.delimiter)
    refine ⟨_, doc.fresh, ?_, hres, hloose, fun n hn => ?_, fun q hq => ?_, .inl rfl, ?_⟩
    · simp only [sourceNode, hreads, Option.isSome_some, if_true, hmath, Subject.data, bind,
        Except.bind, Filtered.text?, pure, Except.pure, hcreate, reach, hspelling]
    · obtain rfl := Option.some.inj ((find?_of_text? htext).symm.trans hn)
      have hne : doc.fresh ≠ p := fun heq => hdoc.fresh_not_mem (Nat.le_refl _) (heq ▸ hp)
      simp [Tree.find?, subtrees, label, hne]
    · exact hdoc.fresh_not_mem (Nat.le_refl _) (mem_ids_of_mem_kids hq).1
    · rw [HasSource, hmath]
      exact htext.trans hspelling.symm
  | node m =>
    have hspelling : item.spelling? = none := by rw [spelling?, hmath]
    rw [hspelling] at hreads
    obtain ⟨hm, hapart⟩ := helement m hmath
    refine ⟨doc, m, ?_, .refl hdoc, hm, hapart, (hdoc.isLoose_iff.1 hm).2.2, .inr rfl, ?_⟩
    · simp only [sourceNode, hreads, Option.isSome_none, Bool.false_eq_true, if_false, hmath, reach,
        hspelling]
    · rw [HasSource, hmath]

/-- The item with its ends around the place `x`, which is its source. -/
def backAt (item : Item) (x : NodeId) : Item :=
  { item with
    start := ⟨some x, 0, item.start.delimiter⟩
    stop := ⟨some x, item.reach, item.stop.delimiter⟩ }

theorem Names.exists_removed (h : item.Names root) (hdoc : doc.WellFormed)
    {before after : List NodeId} (hkids : doc.kids p = before ++ root :: after)
    (helement : ∀ m, item.math = .node m → doc.IsLoose m ∧ doc.Apart p m) :
    ∃ doc' x, item.removeFromDocument doc true = .ok (doc', item.backAt x) ∧
      doc.Reshaped doc' p (before ++ x :: after) ∧ doc'.IsLoose root ∧ item.HasSource doc' x ∧
      (∀ q, x ∉ doc.kids q) ∧ (x = doc.fresh ∨ item.math = .node x) := by
  have hroot : root ∈ doc.kids p := by simp [hkids]
  have hp := (mem_ids_of_mem_kids hroot).2
  obtain ⟨doc₁, x, hsource, hres₁, hloose, hapart, hnot, hnew, hmath⟩ :=
    h.exists_source hdoc hp helement
  have hkids₁ : doc₁.kids p = before ++ root :: after := hres₁.here.trans hkids
  obtain ⟨doc₂, hinsert, hres₂⟩ := insert_reshaped hres₁.wellFormed hkids₁ hloose hapart
  have hkids₂ : doc₂.kids p = (before ++ [x]) ++ root :: after := by simpa using hres₂.here
  obtain ⟨doc₃, hremove, htrim⟩ := remove_trimmed hres₂.wellFormed hkids₂
  have hres : doc.Reshaped doc₃ p (before ++ x :: after) := by
    have hall := (hres₁.trans hres₂ hp).trans htrim.toReshaped hp
    rwa [List.append_assoc, List.singleton_append] at hall
  have hne : root ≠ x := fun heq => hnot p (heq ▸ hroot)
  refine ⟨doc₃, x, ?_, hres, hres.isLoose_of_exchanged hdoc hkids hne, ?_, hnot, hnew⟩
  · have hstart : item.start.node = some root := by rw [h.start]
    simp only [removeFromDocument, if_pos h.stage, hstart, if_true, hsource, bind, Except.bind,
      hinsert, Edited.toExcept, hremove, pure, Except.pure, backAt]
  · rw [HasSource] at hmath ⊢
    revert hmath
    cases item.math with
    | node m => exact id
    | text s =>
      intro htext
      have hx₂ := hres₂.ids x hloose.mem_ids
      exact ((htrim.text? hx₂).trans (hres₂.text? hloose.mem_ids)).trans htext

/-- The source of an item takes the place of its typeset form. -/
theorem Seated.exists_restored (h : Seated doc rank item root) (hdoc : doc.WellFormed)
    (hrank : doc.Ranked rank) :
    ∃ doc' x, item.setStage doc .typeset true = .ok (doc', item.restored x) ∧
      Unseated doc' rank item root x ∧ doc.Swapped doc' [(root, x)] ∧
      doc'.Ranked rank ∧ (∀ q, x ∉ doc.kids q) ∧ (x ∈ doc.ids → item.math = .node x) := by
  obtain ⟨p, hroot, hfits⟩ := h.host
  obtain ⟨before, after, hkids⟩ := List.append_of_mem hroot
  obtain ⟨doc', x, hremove, hres, hloose, hsource, hnot, hnew⟩ :=
    h.exists_removed hdoc hkids fun m hm => by
      refine ⟨h.loose m hm, fun n hn => ?_⟩
      obtain ⟨hmem, rfl⟩ := mem_of_find? hn
      exact Ranked.find?_eq_none hdoc hrank hmem (hfits.element _ hm)
  have hlt : rank p < rank x :=
    hnew.elim (fun heq => hfits.fresh x (Nat.le_of_eq heq.symm)) (hfits.element x)
  have hswapped := hres.swapped hdoc hkids
  refine ⟨doc', x, ?_, ⟨⟨p, ?_, hrank p root hroot, hfits.swapped hswapped⟩, hloose, hsource⟩,
    hswapped, ?_, hnot, fun hid => hnew.resolve_left fun heq => ?_⟩
  · have hstage : Stage.typeset.rank < Stage.inserted.rank := by decide
    simp only [setStage, if_pos hstage, hremove, bind, Except.bind, pure, Except.pure]
    simp only [forget, backAt, restored, h.stage]
    rfl
  · rw [hres.here]
    simp
  · refine hrank.reshaped hres fun c hc => ?_
    rw [List.mem_append, List.mem_cons] at hc
    rcases hc with hc | rfl | hc
    · exact hrank p c (by simp [hkids, hc])
    · exact hlt
    · exact hrank p c (by simp [hkids, hc])
  · exact hdoc.fresh_not_mem (Nat.le_of_eq heq.symm) hid

/-! ### Updating one item -/

theorem isolate_whole {s : String} (hs : doc.text? x = some s) :
    isolate doc x 0 x s.length = .ok (doc, x, []) := by
  have hget := WellFormed.get_eq (find?_of_text? hs)
  have hlabel : (Tree.string x .text s : Node).label = x := rfl
  have hlen : ¬(s.length : Int) < ((Tree.string x .text s : Node).value.length : Int) :=
    Int.lt_irrefl _
  simp only [isolate, hget, bind, Except.bind, firstPlace, hlabel, decide_true, Bool.true_or,
    if_true, dropAfter, if_neg hlen, dropBefore, pure, Except.pure, List.append_nil]

/-- The typeset form takes the place of a source that is one place. -/
theorem exists_place_source (hdoc : doc.WellFormed) {before after : List NodeId}
    (hkids : doc.kids p = before ++ x :: after)
    (hreads : item.source.readsStrings = item.spelling?.isSome) (hstart : item.start.offset = 0)
    (hstop : item.stop.offset = item.reach) (hsource : item.HasSource doc x)
    (hcontent : item.content = some root) (hloose : doc.IsLoose root) (hapart : doc.Apart p root) :
    ∃ doc', item.place doc x x = .ok (doc', root, []) ∧
      doc.Reshaped doc' p (before ++ root :: after) := by
  rw [HasSource] at hsource
  cases hmath : item.math with
  | node m =>
    have hspelling : item.spelling? = none := by rw [spelling?, hmath]
    rw [hspelling] at hreads
    exact place_element hdoc hreads hcontent hloose hapart hkids x
  | text s =>
    have hspelling : item.spelling? =
        some (item.start.delimiter ++ s ++ item.stop.delimiter) := by
      rw [spelling?, hmath]
    rw [hmath] at hsource
    have htext := hsource.trans hspelling
    rw [hspelling] at hreads
    rw [reach, hspelling] at hstop
    obtain ⟨doc', hreplace, hres⟩ := replace_reshaped hdoc hkids hloose hapart
    refine ⟨doc', ?_, hres⟩
    simp only [place, hreads, Option.isSome_some, if_true, hstop, hstart, isolate_whole htext, bind,
      Except.bind, hcontent, hreplace, Edited.toExcept, pure, Except.pure]

/-- The typeset form takes the place of a source that was restored. -/
theorem Unseated.exists_update (h : Unseated doc rank item root x) (hdoc : doc.WellFormed)
    (hrank : doc.Ranked rank) (hnames : item.Names root) :
    ∃ doc', (item.restored x).update doc = .ok (doc', item, []) ∧
      doc.Swapped doc' [(x, root)] ∧ doc'.Ranked rank := by
  obtain ⟨p, hx, hlt, hfits⟩ := h.host
  obtain ⟨before, after, hkids⟩ := List.append_of_mem hx
  have hawaits : Awaits doc rank p root := ⟨h.loose, hrank, hlt, hfits.fresh⟩
  have hstage : (item.restored x).stage ≠ .inserted := by
    show Stage.typeset ≠ .inserted
    decide
  have hreads : (item.restored x).source.readsStrings = (item.restored x).spelling?.isSome :=
    hnames.reads
  obtain ⟨doc', hplace, hres⟩ := exists_place_source hdoc hkids hreads rfl rfl h.source
    hnames.content h.loose (hawaits.apart hdoc)
  have hupdate := update_eq hstage rfl rfl hplace
  rw [hnames.restored_inserted] at hupdate
  refine ⟨doc', hupdate, hres.swapped hdoc hkids, hrank.reshaped hres fun c hc => ?_⟩
  rw [List.mem_append, List.mem_cons] at hc
  rcases hc with hc | rfl | hc
  · exact hrank p c (by simp [hkids, hc])
  · exact hlt
  · exact hrank p c (by simp [hkids, hc])

end

end Item

end Formulary
