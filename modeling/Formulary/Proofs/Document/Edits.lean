import Formulary.Proofs.Document.WellFormed

/-! # What edits change

Each edit of a well-formed document makes one change in the lists of children, and adds
places at most: `Document.Revised` says which, and is what this module proves of every edit.
The edits succeed where they are used: a place with a parent is replaced, or gets a neighbour,
and what takes the place is loose and not above it. -/

namespace Formulary

namespace Document

open Formulary.Tree

/-- The document `doc'` is `doc` with new places, and with every list of children edited. -/
structure Revised (doc doc' : Document) (edit : List NodeId → List NodeId) (added : List Entry) :
    Prop where
  perm : doc'.entries.Perm
    (doc.entries.map (fun e => { e with children := edit e.children }) ++ added)
  root : doc'.root.label = doc.root.label
  fresh : doc.fresh ≤ doc'.fresh

section

variable {doc doc' doc'' : Document} {edit edit' : List NodeId → List NodeId}
  {added added' : List Entry}

theorem Revised.trans (h : doc.Revised doc' edit added) (h' : doc'.Revised doc'' edit' added') :
    doc.Revised doc'' (edit' ∘ edit)
      (added.map (fun e => { e with children := edit' e.children }) ++ added') := by
  refine ⟨h'.perm.trans ?_, h'.root.trans h.root, Nat.le_trans h.fresh h'.fresh⟩
  rw [← List.append_assoc]
  refine List.Perm.append_right _ ((h.perm.map _).trans ?_)
  simp [Function.comp_def]

theorem Revised.ids_perm (h : doc.Revised doc' edit added) :
    doc'.ids.Perm (doc.ids ++ added.map Entry.label) := by
  have := h.perm.map Entry.label
  rw [List.map_append, List.map_map] at this
  rwa [← entries_map_label, ← entries_map_label]

theorem Revised.wellFormed (h : doc.Revised doc' edit added) (hdoc : doc.WellFormed)
    (hadded : (added.map Entry.label).Nodup)
    (hfresh : ∀ e ∈ added, doc.fresh ≤ e.label ∧ e.label < doc'.fresh) : doc'.WellFormed := by
  have hids := h.ids_perm
  refine ⟨hids.nodup_iff.2 (List.nodup_append.2 ⟨hdoc.distinct, hadded, ?_⟩), fun n hn => ?_⟩
  · rintro a ha b hb rfl
    obtain ⟨e, he, rfl⟩ := List.mem_map.1 hb
    exact hdoc.fresh_not_mem (hfresh e he).1 ha
  · have hm := hids.mem_iff.1 (List.mem_map_of_mem hn : n.label ∈ doc'.ids)
    rcases List.mem_append.1 hm with hm | hm
    · exact Nat.lt_of_lt_of_le (hdoc.lt_fresh hm) h.fresh
    · obtain ⟨e, he, hl⟩ := List.mem_map.1 hm
      exact hl ▸ (hfresh e he).2

theorem Revised.wellFormed_nil (h : doc.Revised doc' edit []) (hdoc : doc.WellFormed) :
    doc'.WellFormed := h.wellFormed hdoc (by simp) (by simp)

theorem Revised.kids (h : doc.Revised doc' edit added) (hdoc : doc.WellFormed)
    (hdoc' : doc'.WellFormed) {id : NodeId} (hid : id ∈ doc.ids) :
    doc'.kids id = edit (doc.kids id) := by
  obtain ⟨e, he, rfl, hk⟩ := mem_entries_kids hdoc hid
  have hm := h.perm.mem_iff.2 (List.mem_append_left _ (List.mem_map_of_mem he))
  rw [(hdoc'.mem_entries_iff.1 hm).2, hk]

theorem Revised.shell? (h : doc.Revised doc' edit added) (hdoc : doc.WellFormed)
    (hdoc' : doc'.WellFormed) {id : NodeId} (hid : id ∈ doc.ids) :
    doc'.shell? id = doc.shell? id := by
  obtain ⟨e, he, rfl, -⟩ := mem_entries_kids hdoc hid
  have hm := h.perm.mem_iff.2 (List.mem_append_left _ (List.mem_map_of_mem he))
  rw [(hdoc'.mem_entries_iff.1 hm).1, (hdoc.mem_entries_iff.1 he).1]

theorem Revised.added_entry (h : doc.Revised doc' edit added) (hdoc' : doc'.WellFormed)
    {e : Entry} (he : e ∈ added) :
    doc'.shell? e.label = some e.shell ∧ doc'.kids e.label = e.children :=
  hdoc'.mem_entries_iff.1 (h.perm.mem_iff.2 (List.mem_append_right _ he))

theorem Revised.mem_ids_iff (h : doc.Revised doc' edit added) {id : NodeId} :
    id ∈ doc'.ids ↔ id ∈ doc.ids ∨ id ∈ added.map Entry.label := by
  rw [h.ids_perm.mem_iff, List.mem_append]

/-! ### Taking a place out -/

/-- The document without a place. -/
def without (doc : Document) (id : NodeId) : Document :=
  { doc with
    root := Tree.splice id (fun _ => []) doc.root
    detached := (doc.detached.filter fun t => t.label ≠ id).map (Tree.splice id fun _ => []) }

theorem WellFormed.not_isEndless (h : doc.WellFormed) {n : Node} (hn : n ∈ doc.nodes) :
    doc.isEndless n = false := by
  rw [isEndless, List.any_eq_false]
  intro top htop hh
  obtain ⟨s, hs, hl⟩ := List.any_eq_true.1 hh
  refine label_not_mem_below h.distinct (List.mem_cons_of_mem _ htop) hn ?_
  exact of_decide_eq_true hl ▸ List.mem_map_of_mem hs

theorem WellFormed.lift_eq (h : doc.WellFormed) {id : NodeId} {node : Node}
    (hnode : doc.find? id = some node) : doc.lift id = (doc.without id, some node) := by
  have hnone : (doc.detached.find? fun top => node.holds top.label) = none := by
    have := h.not_isEndless (mem_of_find? hnode).1
    rw [isEndless, List.any_eq_false] at this
    exact List.find?_eq_none.2 this
  simp only [lift, hnode, hnone, without]

theorem subtreesAll_perm {ts us : List Node} (h : ts.Perm us) :
    (Tree.entries ts).Perm (Tree.entries us) := by
  rw [Tree.entries, Tree.entries, subtreesAll_eq_flatMap, subtreesAll_eq_flatMap]
  exact (h.flatMap_right _).map _

theorem filter_label_perm (h : doc.WellFormed) {top : Node} (htop : top ∈ doc.detached) :
    ((doc.detached.filter fun t => t.label ≠ top.label) ++ [top]).Perm doc.detached := by
  obtain ⟨before, after, heq⟩ := List.append_of_mem htop
  have hnodup := (List.nodup_cons.1 (List.nodup_append.1 h.nodup_tops).1).2
  rw [heq, List.map_append, List.map_cons, List.nodup_append, List.nodup_cons] at hnodup
  have hb : (before.filter fun t => t.label ≠ top.label) = before :=
    List.filter_eq_self.2 fun t ht => decide_eq_true
      (hnodup.2.2 _ (List.mem_map_of_mem ht) _ (List.mem_cons_self ..))
  have ha : (after.filter fun t => t.label ≠ top.label) = after :=
    List.filter_eq_self.2 fun t ht => decide_eq_true fun hl =>
      hnodup.2.1.1 (hl ▸ List.mem_map_of_mem ht)
  rw [heq, List.filter_append, List.filter_cons_of_neg (by simp), hb, ha, List.append_assoc]
  exact (List.perm_append_comm).append_left before

/-- To take a loose place out is to take its tree away. -/
theorem without_of_isLoose (h : doc.WellFormed) {top : Node} (htop : top ∈ doc.detached) :
    doc.without top.label =
      { doc with detached := doc.detached.filter fun t => t.label ≠ top.label } := by
  have hcut : ∀ t ∈ doc.trees, t.splice top.label (fun _ => []) = t := fun t ht =>
    splice_of_not_mem _ (label_not_mem_below h.distinct (List.mem_cons_of_mem _ htop)
      (mem_subtreesAll_of_mem ht))
  have hmap : (doc.detached.filter fun t => t.label ≠ top.label).map
      (Tree.splice top.label fun _ => []) = doc.detached.filter fun t => t.label ≠ top.label :=
    (List.map_congr_left fun t ht =>
      hcut t (List.mem_cons_of_mem _ (List.mem_filter.1 ht).1)).trans (List.map_id _)
  rw [without, hcut doc.root (List.mem_cons_self ..), hmap]

theorem entries_without (h : doc.WellFormed) {id : NodeId} {node : Node}
    (hnode : doc.find? id = some node) (hroot : id ≠ doc.root.label) :
    ((doc.without id).entries ++ Tree.entries [node]).Perm
      (doc.entries.map (Entry.exchange id [])) := by
  obtain ⟨hmem, rfl⟩ := mem_of_find? hnode
  by_cases hloose : doc.IsLoose node.label
  · obtain ⟨top, htop, hl⟩ := List.mem_map.1 hloose
    obtain rfl : top = node := eq_of_label_eq h.distinct
      (mem_subtreesAll_of_mem (List.mem_cons_of_mem _ htop)) hmem hl
    rw [without_of_isLoose h htop]
    have hnot : ∀ e ∈ doc.entries, top.label ∉ e.children := fun e he hc =>
      (h.isLoose_iff.1 hloose).2.2 e.label ((h.mem_entries_iff.1 he).2 ▸ hc)
    have hsame : doc.entries.map (Entry.exchange top.label []) = doc.entries :=
      (List.map_congr_left fun e he => Entry.exchange_of_not_mem [] (hnot e he)).trans
        (List.map_id _)
    rw [hsame, entries, entries, ← Tree.entries_append]
    refine subtreesAll_perm ?_
    simp only [trees, List.cons_append]
    exact List.Perm.cons _ (filter_label_perm h htop)
  · have htops : node.label ∉ doc.trees.map Tree.label := by
      rw [trees, List.map_cons, List.mem_cons, not_or]
      exact ⟨hroot, hloose⟩
    have hfilter : (doc.detached.filter fun t => t.label ≠ node.label) = doc.detached := by
      refine List.filter_eq_self.2 fun t ht => decide_eq_true fun hl => htops ?_
      exact hl ▸ List.mem_map_of_mem (List.mem_cons_of_mem _ ht)
    have htrees : (doc.without node.label).trees =
        spliceAll node.label (fun _ => []) doc.trees := by
      rw [spliceAll_eq_map _ htops, trees, without, hfilter]
      rfl
    rw [entries, htrees]
    have hnil : ([] : List Node).map Tree.label = [] := rfl
    simpa [entries] using entries_spliceAll (fun _ => []) hnil doc.trees h.distinct hmem

/-- A place taken out of the document stands beside it. -/
theorem setAside_revised (h : doc.WellFormed) {id : NodeId} (hid : id ∈ doc.ids)
    (hroot : id ≠ doc.root.label) : doc.Revised (doc.setAside id) (exchanged id []) [] := by
  obtain ⟨node, hnode⟩ := exists_of_mem_ids hid
  rw [setAside, h.lift_eq hnode]
  refine ⟨?_, by simp [beside, without], Nat.le_refl _⟩
  have hperm := entries_without h hnode hroot
  rw [List.append_nil]
  refine .trans ?_ hperm
  rw [entries, entries, ← Tree.entries_append]
  rfl

theorem parent?_isSome (h : doc.WellFormed) {c p : NodeId} (hc : c ∈ doc.kids p) :
    ∃ n, doc.parentNode? c = some n ∧ n ∈ doc.nodes ∧ n.label = p := by
  obtain ⟨n, hn⟩ := exists_of_mem_ids (mem_ids_of_mem_kids hc).2
  obtain ⟨hmem, rfl⟩ := mem_of_find? hn
  rw [h.kids_label hmem] at hc
  obtain ⟨m, hm, rfl⟩ := List.mem_map.1 hc
  have hsome : (doc.parentNode? m.label).isSome := by
    rw [parentNode?, List.find?_isSome]
    exact ⟨n, hmem, List.any_eq_true.2 ⟨m, hm, decide_eq_true rfl⟩⟩
  obtain ⟨q, hq⟩ := Option.isSome_iff_exists.1 hsome
  have hqmem : q ∈ doc.nodes := List.mem_of_find?_eq_some hq
  have hany : q.children.any (fun c => c.label = m.label) = true := by
    simpa using List.find?_some hq
  obtain ⟨d, hd, hl⟩ := List.any_eq_true.1 hany
  have hkid : m.label ∈ doc.kids q.label := by
    rw [h.kids_label hqmem, ← of_decide_eq_true hl]
    exact List.mem_map_of_mem hd
  exact ⟨q, hq, hqmem, h.parent_unique hkid (h.kids_label hmem ▸ List.mem_map_of_mem hm)⟩

theorem WellFormed.parent?_eq (h : doc.WellFormed) {c p : NodeId} (hc : c ∈ doc.kids p) :
    doc.parent? c = some p := by
  obtain ⟨n, hn, -, rfl⟩ := parent?_isSome h hc
  rw [parent?, hn]
  rfl

theorem WellFormed.get_eq {id : NodeId} {n : Node} (hn : doc.find? id = some n) :
    doc.get id = .ok n := by rw [get, hn]

theorem find?_of_get {id : NodeId} {n : Node} (hn : doc.get id = .ok n) :
    doc.find? id = some n := by
  rw [get] at hn
  split at hn
  · rename_i hfind
    exact Except.ok.inj hn ▸ hfind
  · cases hn

theorem remove_revised (h : doc.WellFormed) {c p : NodeId} (hc : c ∈ doc.kids p) :
    ∃ doc', doc.remove c = .ok doc' ∧ doc.Revised doc' (exchanged c []) [] := by
  have hid := (mem_ids_of_mem_kids hc).1
  obtain ⟨n, hn⟩ := exists_of_mem_ids hid
  refine ⟨doc.setAside c, ?_, setAside_revised h hid fun hl =>
    h.root_not_mem_kids p (hl ▸ hc)⟩
  simp [remove, WellFormed.get_eq hn, h.parent?_eq hc, bind, Except.bind]
  rfl

/-! ### Putting places in -/

/-- Trees that stand where a child stood, which stands beside the document then. -/
theorem splice_beside_entries (h : doc.WellFormed) {node : Node} {p : NodeId}
    (hc : node.label ∈ doc.kids p) (hnode : node ∈ doc.nodes) (put : Node → List Node) {ids : List NodeId}
    (hput : (put node).map Tree.label = ids) :
    ((doc.splice node.label put).beside node).entries.Perm
      (doc.entries.map (Entry.exchange node.label ids) ++ Tree.entries (put node)) := by
  have htops : node.label ∉ doc.trees.map Tree.label := by
    intro hm
    rcases List.mem_cons.1 hm with hl | hm
    · exact h.root_not_mem_kids p (hl ▸ hc)
    · exact (h.isLoose_iff.1 hm).2.2 p hc
  have htrees : ((doc.splice node.label put).beside node).trees =
      spliceAll node.label put doc.trees ++ [node] := by
    rw [spliceAll_eq_map _ htops]
    rfl
  rw [entries, htrees, Tree.entries_append]
  exact entries_spliceAll put hput doc.trees h.distinct hnode

/-- A child is cut in two: two new strings are children in its stead. -/
theorem split_revised (h : doc.WellFormed) {c p : NodeId} (hc : c ∈ doc.kids p) {node : Node}
    (hnode : doc.find? c = some node) (n : Int) :
    ∃ doc', doc.split c n = .ok (doc.fresh, doc.fresh + 1, doc') ∧
      doc.Revised doc' (exchanged c [doc.fresh, doc.fresh + 1]) [
        ⟨doc.fresh, .string () .text (Text.cut node.value n).1, []⟩,
        ⟨doc.fresh + 1, .string () .text (Text.cut node.value n).2, []⟩] ∧
      doc'.fresh = doc.fresh + 2 := by
  obtain ⟨hmem, rfl⟩ := mem_of_find? hnode
  let put : Node → List Node := fun _ =>
    [.string doc.fresh .text (Text.cut node.value n).1,
      .string (doc.fresh + 1) .text (Text.cut node.value n).2]
  refine ⟨({ doc with fresh := doc.fresh + 2 }.splice node.label put).beside node, ?_, ⟨?_, ?_, ?_⟩,
    rfl⟩
  · simp [split, WellFormed.get_eq hnode, h.parent?_eq hc, bind, Except.bind, put]
    rfl
  · have := splice_beside_entries h hc hmem put rfl
    exact this
  · exact Tree.splice_label ..
  · exact Nat.le_add_right ..

end

end Document

/-! ### New content -/

namespace Fragment

open Formulary.Tree

theorem plant_string (next : NodeId) (u : Unit) (kind : StringKind) (value : String) :
    Fragment.plant next (.string u kind value) = (.string next kind value, next + 1) := by
  rw [Fragment.plant]

theorem plant_element (next : NodeId) (u : Unit) (tag : String) (attributes : Fields Attribute)
    (children : List Fragment) :
    Fragment.plant next (.element u tag attributes children) =
      (.element next tag attributes (Fragment.plantAll (next + 1) children).1,
        (Fragment.plantAll (next + 1) children).2) := by
  rw [Fragment.plant]

theorem plantAll_cons (next : NodeId) (f : Fragment) (rest : List Fragment) :
    Fragment.plantAll next (f :: rest) =
      ((f.plant next).1 :: (Fragment.plantAll (f.plant next).2 rest).1,
        (Fragment.plantAll (f.plant next).2 rest).2) := by
  rw [Fragment.plantAll]

/-- Some identities in a row, given to the places of some content. -/
theorem plantAll_labels_of_forall (fs : List Fragment)
    (h : ∀ f ∈ fs, ∀ next, ∃ k, (f.plant next).2 = next + k ∧
      (f.plant next).1.subtrees.map label = List.range' next k) (next : NodeId) :
    ∃ k, (Fragment.plantAll next fs).2 = next + k ∧
      (subtreesAll (Fragment.plantAll next fs).1).map label = List.range' next k := by
  induction fs generalizing next with
  | nil => exact ⟨0, rfl, rfl⟩
  | cons f rest ih =>
    obtain ⟨k, hk, hl⟩ := h f (by simp) next
    obtain ⟨m, hm, hr⟩ := ih (fun g hg => h g (List.mem_cons_of_mem _ hg)) (f.plant next).2
    refine ⟨k + m, ?_, ?_⟩
    · rw [plantAll_cons, hm, hk, Nat.add_assoc]
    · rw [plantAll_cons, subtreesAll, List.map_append, hl, hr, hk, List.range'_append_1]

theorem plant_labels (f : Fragment) (next : NodeId) :
    ∃ k, (f.plant next).2 = next + k ∧
      (f.plant next).1.subtrees.map label = List.range' next k := by
  induction f using induct generalizing next with
  | step f ih =>
    cases f with
    | string u kind value => exact ⟨1, by rw [plant_string], by rw [plant_string]; rfl⟩
    | element u tag attributes children =>
      obtain ⟨k, hk, hl⟩ := plantAll_labels_of_forall children ih (next + 1)
      refine ⟨k + 1, ?_, ?_⟩
      · rw [plant_element, hk]
        exact Nat.add_right_comm next 1 k
      · rw [plant_element, subtrees, List.map_cons, hl, List.range'_succ]
        rfl

@[simp] theorem plant_label (f : Fragment) (next : NodeId) : (f.plant next).1.label = next := by
  cases f <;> simp [Fragment.plant, label]

theorem map_fragment_plantAll (fs : List Fragment)
    (h : ∀ f ∈ fs, ∀ next, (f.plant next).1.fragment = f) (next : NodeId) :
    (Fragment.plantAll next fs).1.map Tree.fragment = fs := by
  induction fs generalizing next with
  | nil => rfl
  | cons f rest ih =>
    rw [plantAll_cons, List.map_cons, h f (List.mem_cons_self ..),
      ih fun g hg => h g (List.mem_cons_of_mem _ hg)]

theorem fragment_plant (f : Fragment) (next : NodeId) : (f.plant next).1.fragment = f := by
  induction f using induct generalizing next with
  | step f ih =>
    cases f with
    | string u kind value => rw [plant_string, Tree.fragment, Tree.map]
    | element u tag attributes children =>
      rw [plant_element, Tree.fragment, Tree.map, Document.mapAll_eq_map_fragment,
        map_fragment_plantAll children ih]

end Fragment

namespace Document

open Formulary.Tree

theorem wellFormed_ofFragments (content : List Fragment) : (ofFragments content).WellFormed := by
  obtain ⟨k, hk, hl⟩ := Fragment.plantAll_labels_of_forall content
    (fun f _ => Fragment.plant_labels f) (rootId + 1)
  have hlabels : (ofFragments content).nodes.map label = List.range' rootId (k + 1) := by
    rw [List.range'_succ, ← hl, nodes, trees, ofFragments, subtreesAll_cons]
    simp [children, label, subtreesAll]
  have hfresh : (ofFragments content).fresh = rootId + (k + 1) := by
    rw [Nat.add_comm k, ← Nat.add_assoc]
    exact hk
  constructor
  · rw [hlabels]
    exact List.nodup_range'
  · intro n hn
    have hmem : n.label ∈ List.range' rootId (k + 1) := hlabels ▸ List.mem_map_of_mem hn
    rw [hfresh]
    exact (List.mem_range'_1.1 hmem).2

section

variable {doc : Document}

theorem create_revised (h : doc.WellFormed) (content : Fragment) :
    (doc.create content).1 = doc.fresh ∧
      doc.Revised (doc.create content).2 id (Tree.entries [(content.plant doc.fresh).1]) ∧
      (doc.create content).2.WellFormed := by
  obtain ⟨k, hk, hl⟩ := Fragment.plant_labels content doc.fresh
  have hrev : doc.Revised (doc.create content).2 id
      (Tree.entries [(content.plant doc.fresh).1]) := by
    refine ⟨?_, rfl, by simp [create, hk]⟩
    have htrees : (doc.create content).2.trees = doc.trees ++ [(content.plant doc.fresh).1] := rfl
    rw [entries, htrees, Tree.entries_append]
    exact List.Perm.append_right _ (List.Perm.of_eq (List.map_id' _).symm)
  have hlabels : (Tree.entries [(content.plant doc.fresh).1]).map Entry.label =
      List.range' doc.fresh k := by
    rw [Tree.entries_map_label, subtreesAll, subtreesAll, List.append_nil, hl]
  refine ⟨by simp [create], hrev, hrev.wellFormed h ?_ fun e he => ?_⟩
  · rw [hlabels]
    exact List.nodup_range'
  · have hm : e.label ∈ List.range' doc.fresh k := hlabels ▸ List.mem_map_of_mem he
    rw [List.mem_range'_1] at hm
    simpa [create, hk] using hm

/-! ### Moving loose places -/

/-- The document with the loose tree `node` before the place `next`. -/
def withBefore (doc : Document) (next : NodeId) (node : Node) : Document :=
  { doc with
    root := Tree.graftBefore next node doc.root
    detached := (doc.detached.filter fun t => t.label ≠ node.label).map
      (Tree.graftBefore next node) }

theorem label_ne_of_find?_eq_none {node : Node} {p : NodeId} (h : node.find? p = none) :
    node.label ≠ p := fun hl =>
  List.find?_eq_none.1 h node node.self_mem_subtrees (decide_eq_true hl)

theorem WellFormed.cycleFault_eq_none (h : doc.WellFormed) (id : NodeId) :
    doc.cycleFault id = none := by
  rw [cycleFault, if_neg]
  intro hany
  cases hn : doc.find? id with
  | none => rw [hn] at hany; cases hany
  | some n =>
    rw [hn, Option.any_some, h.not_isEndless (mem_of_find? hn).1] at hany
    cases hany

theorem moveAll_singleton (h : doc.WellFormed) {node : Node} (hnode : node ∈ doc.detached)
    {p next : NodeId} (hp : node.find? p = none) :
    doc.moveAll p (Tree.graftBefore next) [node.label] =
      { document := doc.withBefore next node } := by
  have hfind := h.find?_label (mem_subtreesAll_of_mem (List.mem_cons_of_mem _ hnode) : node ∈ doc.nodes)
  have hne := label_ne_of_find?_eq_none hp
  rw [moveAll, if_neg hne, h.lift_eq hfind, without_of_isLoose h hnode]
  simp only [settle, hp, Option.isSome_none, Bool.false_eq_true, if_false, moveAll]
  rfl

theorem not_mem_of_find?_eq_none (h : doc.WellFormed) {node : Node} (hnode : node ∈ doc.detached)
    {c p : NodeId} (hc : c ∈ doc.kids p) (hp : node.find? p = none) :
    c ∉ node.subtrees.map Tree.label := by
  have hn : node ∈ doc.nodes := mem_subtreesAll_of_mem (List.mem_cons_of_mem _ hnode)
  intro hm
  obtain ⟨s, hs, rfl⟩ := List.mem_map.1 hm
  have hs1 : s ∈ subtreesAll [node] := by simpa [mem_subtreesAll] using hs
  rcases mem_or_exists_parent hs1 with hs1 | ⟨q, hq, hsq⟩
  · rw [List.mem_singleton] at hs1
    exact (h.isLoose_iff.1 (List.mem_map_of_mem hnode)).2.2 p (hs1 ▸ hc)
  · have hqn : q ∈ node.subtrees := by simpa [mem_subtreesAll] using hq
    have hqd : q ∈ doc.nodes := subtreesAll_trans hqn hn
    have hkid : s.label ∈ doc.kids q.label := h.kids_label hqd ▸ List.mem_map_of_mem hsq
    have := List.find?_eq_none.1 hp q hqn
    exact this (decide_eq_true (h.parent_unique hkid hc))

/-- The trees of a document without one of those beside it. -/
def othersThan (doc : Document) (node : Node) : List Node :=
  doc.root :: doc.detached.filter fun t => t.label ≠ node.label

theorem othersThan_perm (h : doc.WellFormed) {node : Node} (hnode : node ∈ doc.detached) :
    (doc.othersThan node ++ [node]).Perm doc.trees :=
  List.Perm.cons _ (filter_label_perm h hnode)

theorem nodes_perm_othersThan (h : doc.WellFormed) {node : Node} (hnode : node ∈ doc.detached) :
    (subtreesAll (doc.othersThan node) ++ node.subtrees).Perm doc.nodes := by
  have hperm := (othersThan_perm h hnode).flatMap_right Tree.subtrees
  rw [← subtreesAll_eq_flatMap, ← subtreesAll_eq_flatMap, subtreesAll_append] at hperm
  rwa [subtreesAll, subtreesAll, List.append_nil] at hperm

theorem not_mem_othersThan (h : doc.WellFormed) {node : Node} {c p : NodeId}
    (hc : c ∈ doc.kids p) : c ∉ (doc.othersThan node).map Tree.label := by
  intro hm
  rcases List.mem_cons.1 hm with hl | hm
  · exact h.root_not_mem_kids p (hl ▸ hc)
  · obtain ⟨t, ht, rfl⟩ := List.mem_map.1 hm
    have hloose : doc.IsLoose t.label := List.mem_map_of_mem (List.mem_filter.1 ht).1
    exact (h.isLoose_iff.1 hloose).2.2 p hc

theorem withBefore_revised (h : doc.WellFormed) {node : Node} (hnode : node ∈ doc.detached)
    {c p : NodeId} (hc : c ∈ doc.kids p) (hp : node.find? p = none) :
    doc.Revised (doc.withBefore c node) (exchanged c [node.label, c]) [] := by
  obtain ⟨old, hold⟩ := exists_of_mem_ids (mem_ids_of_mem_kids hc).1
  obtain ⟨hmem, rfl⟩ := mem_of_find? hold
  have hnodes := nodes_perm_othersThan h hnode
  have hout := not_mem_of_find?_eq_none h hnode hc hp
  have hin : old ∈ subtreesAll (doc.othersThan node) :=
    (List.mem_append.1 (hnodes.mem_iff.2 hmem)).resolve_right
      fun hm => hout (List.mem_map_of_mem hm)
  have hdist : ((subtreesAll (doc.othersThan node)).map Tree.label).Nodup := by
    have := (hnodes.map Tree.label).nodup_iff.2 h.distinct
    rw [List.map_append] at this
    exact (List.nodup_append.1 this).1
  have hids : [node, old].map Tree.label = [node.label, old.label] := rfl
  have hspl := entries_spliceAll (fun t => [node, t]) hids (doc.othersThan node) hdist hin
  have hsame : (Tree.entries [node]).map (Entry.exchange old.label [node.label, old.label]) =
      Tree.entries [node] :=
    exchange_entries_of_not_mem _ (by simpa [subtreesAll] using hout)
  have htrees : (doc.withBefore old.label node).trees =
      spliceAll old.label (fun t => [node, t]) (doc.othersThan node) := by
    rw [spliceAll_eq_map _ (not_mem_othersThan h hc)]
    rfl
  refine ⟨?_, Tree.splice_label .., Nat.le_refl _⟩
  rw [List.append_nil, entries, htrees]
  have hcancel : (Tree.entries (spliceAll old.label (fun t => [node, t]) (doc.othersThan node))).Perm
      ((Tree.entries (doc.othersThan node)).map
        (Entry.exchange old.label [node.label, old.label]) ++ Tree.entries [node]) := by
    rw [show Tree.entries [node, old] = Tree.entries [node] ++ Tree.entries [old] from
      Tree.entries_append [node] [old], ← List.append_assoc] at hspl
    exact (List.perm_append_right_iff _).1 hspl
  refine hcancel.trans ?_
  rw [← hsame, ← List.map_append, ← Tree.entries_append]
  exact (subtreesAll_perm (othersThan_perm h hnode)).map _

theorem exchanged_exchanged {a b : NodeId} (hab : b ≠ a) (children : List NodeId) :
    exchanged a [] (exchanged a [b, a] children) = exchanged a [b] children := by
  induction children with
  | nil => rfl
  | cons c rest ih =>
    rw [exchanged_cons, exchanged_append, ih, exchanged_cons]
    by_cases hc : c = a
    · subst hc
      rw [if_pos rfl, if_pos rfl, exchanged_cons, if_neg hab, exchanged_cons_self]
      rfl
    · rw [if_neg hc, if_neg hc, exchanged_of_not_mem [] (by simpa using Ne.symm hc)]

/-- A loose place that the parent of `old` is not in takes the place of `old`. -/
theorem replace_revised (h : doc.WellFormed) {new old p : NodeId} (hnew : doc.IsLoose new)
    (hold : old ∈ doc.kids p) (hp : ∀ n, doc.find? new = some n → n.find? p = none) :
    ∃ doc', doc.replace new old = { document := doc' } ∧
      doc.Revised doc' (exchanged old [new]) [] := by
  obtain ⟨node, hnode, rfl⟩ := List.mem_map.1 hnew
  have hpn := hp node (h.find?_label (mem_subtreesAll_of_mem (List.mem_cons_of_mem _ hnode)))
  have hloose := h.isLoose_iff.1 hnew
  have hne : node.label ≠ old := fun hl => hloose.2.2 p (hl ▸ hold)
  have hnp := label_ne_of_find?_eq_none hpn
  have hrev := withBefore_revised h hnode hold hpn
  have hwf := hrev.wellFormed_nil h
  have hmem : old ∈ (doc.withBefore old node).ids :=
    hrev.mem_ids_iff.2 (.inl (mem_ids_of_mem_kids hold).1)
  have hroot : old ≠ (doc.withBefore old node).root.label := by
    rw [hrev.root]
    rintro rfl
    exact h.root_not_mem_kids p hold
  have hset := hrev.trans (setAside_revised hwf hmem hroot)
  refine ⟨(doc.withBefore old node).setAside old, ?_, ?_, hset.root, hset.fresh⟩
  · rw [replace, h.parent?_eq hold]
    simp only [if_neg hne, if_neg hnp, moved, if_neg hloose.2.1, moveAll_singleton h hnode hpn]
  · simpa [Function.comp_def, exchanged_exchanged hne] using hset.perm

/-- A loose place that the parent of `next` is not in comes to stand before `next`. -/
theorem insert_revised (h : doc.WellFormed) {id next p : NodeId} (hid : doc.IsLoose id)
    (hnext : next ∈ doc.kids p) (hp : ∀ n, doc.find? id = some n → n.find? p = none) :
    ∃ doc', doc.insert id next = { document := doc' } ∧
      doc.Revised doc' (exchanged next [id, next]) [] := by
  obtain ⟨node, hnode, rfl⟩ := List.mem_map.1 hid
  have hpn := hp node (h.find?_label (mem_subtreesAll_of_mem (List.mem_cons_of_mem _ hnode)))
  have hloose := h.isLoose_iff.1 hid
  have hne : node.label ≠ next := fun hl => hloose.2.2 p (hl ▸ hnext)
  have hnp := label_ne_of_find?_eq_none hpn
  have hrev := withBefore_revised h hnode hnext hpn
  have hwf := hrev.wellFormed_nil h
  refine ⟨doc.withBefore next node, ?_, hrev⟩
  rw [insert, h.parent?_eq hnext]
  simp only [if_neg hne, if_neg hnp, moved, if_neg hloose.2.1, moveAll_singleton h hnode hpn,
    hwf.cycleFault_eq_none]
  rfl

end

end Document

end Formulary
