import Mathlib.Data.List.Basic
import Mathlib.Data.List.Nodup
import Mathlib.Data.List.Perm.Basic
import Formulary.Document.Tree

/-! # Trees as sets of entries

A tree of places is known once it is known, for every place in it, what the place is and
which places are its children: its *entry*.  The edits of a document are changes of one list
of children each, and `entries_spliceAll` says so: it compares the entries of some trees before
and after other trees come to stand where one stood.

`mem_subtreesAll_of_entries` is the way back: trees that agree on the entries of a place and of
all places below it hold the same tree there. -/

namespace Formulary

namespace Tree

variable {α : Type}

/-! ### Places below a place -/

mutual

theorem induct {motive : Tree α → Prop} (step : ∀ t : Tree α, (∀ c ∈ t.children, motive c) → motive t) :
    ∀ t, motive t
  | .string _ _ _ => step _ (fun _ hc => by simp [children] at hc)
  | .element _ _ _ cs => step _ (inductAll step cs)

/-- The same for the trees of a list. -/
theorem inductAll {motive : Tree α → Prop}
    (step : ∀ t : Tree α, (∀ c ∈ t.children, motive c) → motive t) :
    ∀ ts : List (Tree α), ∀ c ∈ ts, motive c
  | [] => fun _ hc => by simp at hc
  | t :: rest => fun c hc => by
    rcases List.mem_cons.1 hc with hc | hc
    · exact hc ▸ induct step t
    · exact inductAll step rest c hc

end

theorem subtrees_eq (t : Tree α) : t.subtrees = t :: subtreesAll t.children := by
  cases t <;> simp [subtrees, subtreesAll, children]

theorem subtreesAll_eq_flatMap (ts : List (Tree α)) : subtreesAll ts = ts.flatMap subtrees := by
  induction ts with
  | nil => rfl
  | cons t rest ih => simp [subtreesAll, ih]

theorem subtreesAll_cons (t : Tree α) (ts : List (Tree α)) :
    subtreesAll (t :: ts) = t :: (subtreesAll t.children ++ subtreesAll ts) := by
  rw [subtreesAll, subtrees_eq, List.cons_append]

@[simp] theorem subtreesAll_append (ts us : List (Tree α)) :
    subtreesAll (ts ++ us) = subtreesAll ts ++ subtreesAll us := by
  simp [subtreesAll_eq_flatMap]

theorem mem_subtreesAll {s : Tree α} {ts : List (Tree α)} :
    s ∈ subtreesAll ts ↔ ∃ t ∈ ts, s ∈ t.subtrees := by
  simp [subtreesAll_eq_flatMap]

@[simp] theorem self_mem_subtrees (t : Tree α) : t ∈ t.subtrees := by simp [subtrees_eq]

theorem mem_subtreesAll_of_mem {t : Tree α} {ts : List (Tree α)} (h : t ∈ ts) :
    t ∈ subtreesAll ts := mem_subtreesAll.2 ⟨t, h, t.self_mem_subtrees⟩

theorem mem_subtrees_of_below {s t : Tree α} (hs : s ∈ subtreesAll t.children) :
    s ∈ t.subtrees := by
  rw [subtrees_eq]
  exact List.mem_cons_of_mem _ hs

theorem mem_subtrees_of_child {s c t : Tree α} (hc : c ∈ t.children) (hs : s ∈ c.subtrees) :
    s ∈ t.subtrees :=
  mem_subtrees_of_below (mem_subtreesAll.2 ⟨c, hc, hs⟩)

theorem subtrees_trans {s t u : Tree α} (hs : s ∈ t.subtrees) (ht : t ∈ u.subtrees) :
    s ∈ u.subtrees := by
  induction u using induct with
  | step u ih =>
    rw [subtrees_eq, List.mem_cons] at ht
    rcases ht with rfl | ht
    · exact hs
    · obtain ⟨c, hc, htc⟩ := mem_subtreesAll.1 ht
      exact mem_subtrees_of_child hc (ih c hc htc)

theorem subtreesAll_trans {s t : Tree α} {ts : List (Tree α)} (hs : s ∈ t.subtrees)
    (ht : t ∈ subtreesAll ts) : s ∈ subtreesAll ts := by
  obtain ⟨u, hu, htu⟩ := mem_subtreesAll.1 ht
  exact mem_subtreesAll.2 ⟨u, hu, subtrees_trans hs htu⟩

theorem mem_subtreesAll_of_below {s t : Tree α} {ts : List (Tree α)}
    (hs : s ∈ subtreesAll t.children) (ht : t ∈ subtreesAll ts) : s ∈ subtreesAll ts :=
  subtreesAll_trans (mem_subtrees_of_below hs) ht

theorem mem_subtreesAll_children {c t : Tree α} {ts : List (Tree α)} (hc : c ∈ t.children)
    (ht : t ∈ subtreesAll ts) : c ∈ subtreesAll ts :=
  mem_subtreesAll_of_below (mem_subtreesAll_of_mem hc) ht

/-- A place alone, without its children and its label. -/
def shell : Tree α → Fragment
  | string _ kind value => .string () kind value
  | element _ tag attributes _ => .element () tag attributes []

end Tree

/-! ### Entries -/

/-- What a tree says of one of its places. -/
structure Entry where
  label : NodeId
  shell : Fragment
  children : List NodeId

/-- A list of children with `ids` in place of the child `id`. -/
def exchanged (id : NodeId) (ids children : List NodeId) : List NodeId :=
  children.flatMap fun c => if c = id then ids else [c]

theorem exchanged_of_not_mem {id : NodeId} (ids : List NodeId) {children : List NodeId}
    (h : id ∉ children) : exchanged id ids children = children := by
  induction children with
  | nil => rfl
  | cons c rest ih =>
    rw [List.mem_cons, not_or] at h
    rw [exchanged, List.flatMap_cons, if_neg (Ne.symm h.1)]
    exact congrArg (c :: ·) (ih h.2)

theorem exchanged_cons (id : NodeId) (ids : List NodeId) (c : NodeId) (rest : List NodeId) :
    exchanged id ids (c :: rest) = (if c = id then ids else [c]) ++ exchanged id ids rest :=
  List.flatMap_cons

theorem exchanged_append (id : NodeId) (ids before after : List NodeId) :
    exchanged id ids (before ++ after) = exchanged id ids before ++ exchanged id ids after :=
  List.flatMap_append

@[simp] theorem exchanged_cons_self (id : NodeId) (ids after : List NodeId) :
    exchanged id ids (id :: after) = ids ++ exchanged id ids after := by
  simp [exchanged]

theorem exchanged_append_cons {id : NodeId} (ids : List NodeId) {before after : List NodeId}
    (h : (before ++ id :: after).Nodup) :
    exchanged id ids (before ++ id :: after) = before ++ ids ++ after := by
  rw [List.nodup_append, List.nodup_cons] at h
  have hb : id ∉ before := fun hm => h.2.2 id hm id (by simp) rfl
  rw [exchanged_append, exchanged_cons_self, exchanged_of_not_mem ids hb,
    exchanged_of_not_mem ids h.2.1.1, List.append_assoc]

namespace Entry

/-- The entry with `ids` in place of the child `id`. -/
def exchange (id : NodeId) (ids : List NodeId) (e : Entry) : Entry :=
  { e with children := exchanged id ids e.children }

@[simp] theorem exchange_label (id : NodeId) (ids : List NodeId) (e : Entry) :
    (e.exchange id ids).label = e.label := rfl

@[simp] theorem exchange_shell (id : NodeId) (ids : List NodeId) (e : Entry) :
    (e.exchange id ids).shell = e.shell := rfl

theorem exchange_of_not_mem {id : NodeId} (ids : List NodeId) {e : Entry} (h : id ∉ e.children) :
    e.exchange id ids = e := by
  simp [exchange, exchanged_of_not_mem ids h]

end Entry

namespace Tree

/-- The entry of the top of a tree. -/
def entry (t : Node) : Entry := ⟨t.label, t.shell, t.children.map label⟩

@[simp] theorem entry_label (t : Node) : t.entry.label = t.label := rfl

@[simp] theorem entry_shell (t : Node) : t.entry.shell = t.shell := rfl

@[simp] theorem entry_children (t : Node) : t.entry.children = t.children.map label := rfl

/-- The entries of all places of some trees. -/
def entries (ts : List Node) : List Entry := (subtreesAll ts).map entry

theorem entries_cons (t : Node) (ts : List Node) :
    entries (t :: ts) = t.entry :: (entries t.children ++ entries ts) := by
  simp [entries, subtreesAll_cons]

@[simp] theorem entries_nil : entries [] = [] := rfl

@[simp] theorem entries_append (ts us : List Node) :
    entries (ts ++ us) = entries ts ++ entries us := by simp [entries]

theorem entries_map_label (ts : List Node) :
    (entries ts).map Entry.label = (subtreesAll ts).map label := by
  simp [entries, Function.comp_def]

theorem mem_labels_of_mem_children {ts : List Node} {e : Entry} {c : NodeId}
    (he : e ∈ entries ts) (hc : c ∈ e.children) : c ∈ (subtreesAll ts).map label := by
  obtain ⟨t, ht, rfl⟩ := List.mem_map.1 he
  obtain ⟨u, hu, rfl⟩ := List.mem_map.1 hc
  exact List.mem_map_of_mem (mem_subtreesAll_children hu ht)

theorem exchange_entries_of_not_mem {id : NodeId} (ids : List NodeId) {ts : List Node}
    (h : id ∉ (subtreesAll ts).map label) :
    (entries ts).map (Entry.exchange id ids) = entries ts := by
  refine (List.map_congr_left fun e he => ?_).trans (List.map_id _)
  exact Entry.exchange_of_not_mem ids fun hc => h (mem_labels_of_mem_children he hc)

theorem labels_perm_of_forall (ts : List Node)
    (h : ∀ t ∈ ts, ((entries [t]).map Entry.label).Perm
      (t.label :: (entries [t]).flatMap Entry.children)) :
    ((entries ts).map Entry.label).Perm (ts.map label ++ (entries ts).flatMap Entry.children) := by
  induction ts with
  | nil => simp
  | cons t rest ih =>
    have hrest := ih fun u hu => h u (List.mem_cons_of_mem _ hu)
    rw [← List.singleton_append, entries_append, List.map_append, List.flatMap_append,
      List.map_append]
    refine ((h t (by simp)).append hrest).trans ?_
    simp only [List.map_cons, List.map_nil, List.cons_append, List.nil_append]
    exact List.Perm.cons _ (List.perm_append_comm_assoc _ _ _)

/-- Every place is at the top of a tree or is a child, and is so once. -/
theorem labels_perm (ts : List Node) :
    ((entries ts).map Entry.label).Perm (ts.map label ++ (entries ts).flatMap Entry.children) := by
  refine labels_perm_of_forall ts fun t ht => ?_
  clear ht
  induction t using induct with
  | step t ih => simpa [entries_cons] using labels_perm_of_forall t.children ih

theorem mem_or_exists_parent {s : Node} {ts : List Node} (hs : s ∈ subtreesAll ts) :
    s ∈ ts ∨ ∃ t ∈ subtreesAll ts, s ∈ t.children := by
  obtain ⟨t, ht, hst⟩ := mem_subtreesAll.1 hs
  suffices h : s = t ∨ ∃ u ∈ t.subtrees, s ∈ u.children by
    rcases h with rfl | ⟨u, hu, hsu⟩
    · exact .inl ht
    · exact .inr ⟨u, mem_subtreesAll.2 ⟨t, ht, hu⟩, hsu⟩
  clear ht
  induction t using induct with
  | step t ih =>
    rw [subtrees_eq, List.mem_cons] at hst
    rcases hst with rfl | hst
    · exact .inl rfl
    · obtain ⟨c, hc, hsc⟩ := mem_subtreesAll.1 hst
      have hct : c ∈ t.subtrees := mem_subtrees_of_child hc c.self_mem_subtrees
      rcases ih c hc hsc with rfl | ⟨u, hu, hsu⟩
      · exact .inr ⟨t, t.self_mem_subtrees, hc⟩
      · exact .inr ⟨u, subtrees_trans hu hct, hsu⟩

theorem label_not_mem_below {t n : Node} {ts : List Node}
    (hd : ((subtreesAll ts).map label).Nodup) (ht : t ∈ ts) (hn : n ∈ subtreesAll ts) :
    t.label ∉ (subtreesAll n.children).map label := by
  intro hm
  obtain ⟨s, hs, hl⟩ := List.mem_map.1 hm
  obtain ⟨u, hu, hsu⟩ : ∃ u ∈ subtreesAll ts, s ∈ u.children := by
    rcases mem_or_exists_parent hs with hs | ⟨u, hu, hsu⟩
    · exact ⟨n, hn, hs⟩
    · exact ⟨u, mem_subtreesAll_of_below hu hn, hsu⟩
  have hperm := (labels_perm ts).nodup_iff.1 (entries_map_label ts ▸ hd)
  refine (List.nodup_append.1 hperm).2.2 _ (List.mem_map_of_mem ht) _ ?_ rfl
  rw [List.mem_flatMap]
  exact ⟨u.entry, List.mem_map_of_mem hu, hl ▸ List.mem_map_of_mem hsu⟩

/-! ### Putting trees where a tree is -/

@[simp] theorem splice_label (id : NodeId) (put : Node → List Node) (t : Node) :
    (t.splice id put).label = t.label := by cases t <;> rfl

@[simp] theorem splice_shell (id : NodeId) (put : Node → List Node) (t : Node) :
    (t.splice id put).shell = t.shell := by cases t <;> rfl

theorem splice_children (id : NodeId) (put : Node → List Node) (t : Node) :
    (t.splice id put).children = spliceAll id put t.children := by cases t <;> rfl

theorem splice_eq_self {id : NodeId} {put : Node → List Node} {t : Node}
    (h : spliceAll id put t.children = t.children) : t.splice id put = t := by
  cases t with
  | string => rfl
  | element label tag attributes children => exact congrArg (element label tag attributes) h

theorem spliceAll_eq_self {id : NodeId} {put : Node → List Node} {ts : List Node}
    (h : ∀ t ∈ ts, t.label ≠ id ∧ t.splice id put = t) : spliceAll id put ts = ts := by
  induction ts with
  | nil => rfl
  | cons t rest ih =>
    obtain ⟨hne, ht⟩ := h t (by simp)
    rw [spliceAll, if_neg hne, ht, ih fun u hu => h u (List.mem_cons_of_mem _ hu)]
    rfl

theorem spliceAll_eq_map {id : NodeId} (put : Node → List Node) {ts : List Node}
    (h : id ∉ ts.map label) : spliceAll id put ts = ts.map (splice id put) := by
  induction ts with
  | nil => rfl
  | cons t rest ih =>
    rw [List.map_cons, List.mem_cons, not_or] at h
    rw [spliceAll, if_neg (Ne.symm h.1), ih h.2]
    rfl

theorem splice_of_not_mem {id : NodeId} (put : Node → List Node) {t : Node}
    (h : id ∉ (subtreesAll t.children).map label) : t.splice id put = t := by
  induction t using induct with
  | step t ih =>
    refine splice_eq_self (spliceAll_eq_self fun c hc => ⟨?_, ih c hc fun hm => h ?_⟩)
    · rintro rfl
      exact h (List.mem_map_of_mem (mem_subtreesAll_of_mem hc))
    · obtain ⟨s, hs, rfl⟩ := List.mem_map.1 hm
      exact List.mem_map_of_mem (mem_subtreesAll.2 ⟨c, hc, mem_subtrees_of_below hs⟩)

theorem spliceAll_of_not_mem {id : NodeId} (put : Node → List Node) {ts : List Node}
    (h : id ∉ (subtreesAll ts).map label) : spliceAll id put ts = ts := by
  refine spliceAll_eq_self fun t ht => ⟨?_, splice_of_not_mem put fun hm => h ?_⟩
  · rintro rfl
    exact h (List.mem_map_of_mem (mem_subtreesAll_of_mem ht))
  · obtain ⟨s, hs, rfl⟩ := List.mem_map.1 hm
    exact List.mem_map_of_mem (mem_subtreesAll.2 ⟨t, ht, mem_subtrees_of_below hs⟩)

theorem spliceAll_map_label {node : Node} {put : Node → List Node} {ids : List NodeId}
    (hput : (put node).map label = ids) {ts : List Node}
    (huniq : ∀ t ∈ ts, t.label = node.label → t = node) :
    (spliceAll node.label put ts).map label = exchanged node.label ids (ts.map label) := by
  induction ts with
  | nil => rfl
  | cons t rest ih =>
    rw [spliceAll, List.map_append, ih fun u hu => huniq u (List.mem_cons_of_mem _ hu),
      List.map_cons, exchanged, exchanged, List.flatMap_cons]
    by_cases ht : t.label = node.label
    · rw [if_pos ht, if_pos ht, huniq t (by simp) ht, hput]
    · rw [if_neg ht, if_neg ht, List.map_singleton, splice_label]

theorem eq_of_label_eq {ts : List Node} (hd : ((subtreesAll ts).map label).Nodup) {s t : Node}
    (hs : s ∈ subtreesAll ts) (ht : t ∈ subtreesAll ts) (h : s.label = t.label) : s = t :=
  List.inj_on_of_nodup_map hd hs ht h

theorem subtrees_sublist {t : Node} {ts : List Node} (ht : t ∈ ts) :
    t.subtrees.Sublist (subtreesAll ts) := by
  obtain ⟨before, after, rfl⟩ := List.append_of_mem ht
  rw [subtreesAll_append, subtreesAll]
  exact (List.sublist_append_left _ _).trans (List.sublist_append_right _ _)

theorem nodup_children {t : Node} {ts : List Node} (hd : ((subtreesAll ts).map label).Nodup)
    (ht : t ∈ ts) : ((subtreesAll t.children).map label).Nodup := by
  refine hd.sublist (List.Sublist.map _ (.trans ?_ (subtrees_sublist ht)))
  rw [subtrees_eq]
  exact List.sublist_cons_self _ _

theorem sublist_subtreesAll {t : Node} {ts : List Node} (ht : t ∈ subtreesAll ts) :
    t.subtrees.Sublist (subtreesAll ts) := by
  obtain ⟨u, hu, htu⟩ := mem_subtreesAll.1 ht
  refine .trans ?_ (subtrees_sublist hu)
  clear hu ht
  induction u using induct with
  | step u ih =>
    rw [subtrees_eq, List.mem_cons] at htu
    rcases htu with rfl | htu
    · exact .refl _
    · obtain ⟨c, hc, htc⟩ := mem_subtreesAll.1 htu
      rw [subtrees_eq u]
      exact (ih c hc htc).trans ((subtrees_sublist hc).cons _)

theorem nodup_below {t : Node} {ts : List Node} (hd : ((subtreesAll ts).map label).Nodup)
    (ht : t ∈ subtreesAll ts) : (t.labels).Nodup :=
  hd.sublist ((sublist_subtreesAll ht).map _)

theorem perm_append_right_comm {β : Type} (a b c : List β) : (a ++ b ++ c).Perm (a ++ c ++ b) := by
  simpa only [List.append_assoc] using List.perm_append_comm.append_left a

theorem entry_splice {node : Node} {put : Node → List Node} {ids : List NodeId}
    (hput : (put node).map label = ids) {t : Node}
    (huniq : ∀ c ∈ t.children, c.label = node.label → c = node) :
    (t.splice node.label put).entry = t.entry.exchange node.label ids := by
  simp only [entry, splice_label, splice_shell, splice_children, Entry.exchange]
  rw [spliceAll_map_label hput huniq]

/-- One level of `entries_spliceAll`. -/
theorem entries_spliceAll_of_forall {node : Node} {put : Node → List Node} {ids : List NodeId}
    (hput : (put node).map label = ids) (ts : List Node)
    (hd : ((subtreesAll ts).map label).Nodup) (hn : node ∈ subtreesAll ts)
    (h : ∀ t ∈ ts, node ∈ subtreesAll t.children →
      (entries (spliceAll node.label put t.children) ++ entries [node]).Perm
        ((entries t.children).map (Entry.exchange node.label ids) ++ entries (put node))) :
    (entries (spliceAll node.label put ts) ++ entries [node]).Perm
      ((entries ts).map (Entry.exchange node.label ids) ++ entries (put node)) := by
  induction ts with
  | nil => simp [subtreesAll] at hn
  | cons t rest ih =>
    have hd' := hd
    rw [subtreesAll_cons, List.map_cons, List.map_append, List.nodup_cons, List.nodup_append] at hd'
    obtain ⟨htop, hdt, hdr, hdis⟩ := hd'
    rw [List.mem_append, not_or] at htop
    by_cases ht : t = node
    · subst ht
      have hself : t.entry.exchange t.label ids = t.entry :=
        Entry.exchange_of_not_mem ids fun hc => htop.1 <| by
          obtain ⟨c, hc, hl⟩ := List.mem_map.1 hc
          exact hl ▸ List.mem_map_of_mem (mem_subtreesAll_of_mem hc)
      rw [spliceAll, if_pos rfl, spliceAll_of_not_mem put htop.2, entries_append, entries_cons,
        entries_cons, List.map_cons, List.map_append, hself,
        exchange_entries_of_not_mem ids htop.1, exchange_entries_of_not_mem ids htop.2]
      simp only [entries_nil, List.append_nil]
      rw [List.append_assoc]
      refine List.perm_append_comm.trans (List.Perm.append_right _ ?_)
      exact List.perm_append_comm.trans (List.Perm.refl _)
    · have hlabel : t.label ≠ node.label := fun hl =>
        ht (eq_of_label_eq hd (mem_subtreesAll_of_mem (by simp)) hn hl)
      have hsplit : node ∈ subtreesAll t.children ∨ node ∈ subtreesAll rest := by
        rw [subtreesAll_cons, List.mem_cons, List.mem_append] at hn
        exact hn.resolve_left fun hl => ht hl.symm
      have hentry := entry_splice hput (t := t) fun c hc hl =>
        eq_of_label_eq hd (mem_subtreesAll_children hc (mem_subtreesAll_of_mem (by simp))) hn hl
      rw [spliceAll, if_neg hlabel, List.singleton_append, entries_cons (t.splice _ put), hentry,
        splice_children, entries_cons t, List.map_cons, List.map_append]
      simp only [List.cons_append]
      refine List.Perm.cons _ ?_
      rcases hsplit with hin | hin
      · have hout : node.label ∉ (subtreesAll rest).map label := fun hm =>
          hdis _ (List.mem_map_of_mem hin) _ hm rfl
        rw [spliceAll_of_not_mem put hout, exchange_entries_of_not_mem ids hout]
        refine (perm_append_right_comm _ _ _).trans (.trans ?_ (perm_append_right_comm _ _ _))
        exact (h t (by simp) hin).append_right _
      · have hout : node.label ∉ (subtreesAll t.children).map label := fun hm =>
          hdis _ hm _ (List.mem_map_of_mem hin) rfl
        rw [spliceAll_of_not_mem put hout, exchange_entries_of_not_mem ids hout,
          List.append_assoc, List.append_assoc]
        exact (ih hdr hin fun u hu => h u (List.mem_cons_of_mem _ hu)).append_left _

/-- Trees `put node` in place of the tree `node`: wherever `node` is a child, they are children
in its stead, and all entries but those of `node` and of its places stay. -/
theorem entries_spliceAll {node : Node} (put : Node → List Node) {ids : List NodeId}
    (hput : (put node).map label = ids) (ts : List Node)
    (hd : ((subtreesAll ts).map label).Nodup) (hn : node ∈ subtreesAll ts) :
    (entries (spliceAll node.label put ts) ++ entries [node]).Perm
      ((entries ts).map (Entry.exchange node.label ids) ++ entries (put node)) := by
  have hall : ∀ t : Node, ((subtreesAll t.children).map label).Nodup →
      node ∈ subtreesAll t.children →
      (entries (spliceAll node.label put t.children) ++ entries [node]).Perm
        ((entries t.children).map (Entry.exchange node.label ids) ++ entries (put node)) := by
    intro t
    induction t using induct with
    | step t ih =>
      intro hd hn
      exact entries_spliceAll_of_forall hput t.children hd hn fun c hc =>
        ih c hc (nodup_children hd hc)
  exact entries_spliceAll_of_forall hput ts hd hn fun t ht => hall t (nodup_children hd ht)

/-! ### From entries back to trees -/

theorem children_eq_of_entry_eq {ts : List Node} (hd : ((subtreesAll ts).map label).Nodup)
    {cs ds : List Node} (hcs : ∀ c ∈ cs, c ∈ subtreesAll ts) (hds : ∀ d ∈ ds, d ∈ subtreesAll ts)
    (h : cs.map label = ds.map label) : cs = ds := by
  induction cs generalizing ds with
  | nil => exact (List.map_eq_nil_iff.1 h.symm).symm
  | cons c rest ih =>
    cases ds with
    | nil => simp at h
    | cons d rest' =>
      rw [List.map_cons, List.map_cons, List.cons.injEq] at h
      rw [eq_of_label_eq hd (hcs c (by simp)) (hds d (by simp)) h.1,
        ih (fun u hu => hcs u (List.mem_cons_of_mem _ hu))
          (fun u hu => hds u (List.mem_cons_of_mem _ hu)) h.2]

theorem eq_of_shell_eq {s t : Node} (hlabel : s.label = t.label) (hshell : s.shell = t.shell)
    (hchildren : s.children = t.children) : s = t := by
  cases s <;> cases t <;> simp_all [label, shell, children]

/-- A tree is among the places of some trees once the entries of its places are among theirs. -/
theorem mem_subtreesAll_of_entries {ts : List Node} (hd : ((subtreesAll ts).map label).Nodup)
    {t : Node} (h : ∀ e ∈ entries [t], e ∈ entries ts) : t ∈ subtreesAll ts := by
  induction t using induct with
  | step t ih =>
    have hchild : ∀ c ∈ t.children, c ∈ subtreesAll ts := fun c hc => ih c hc fun e he => h e <| by
      obtain ⟨s, hs, rfl⟩ := List.mem_map.1 he
      refine List.mem_map_of_mem (subtreesAll_trans ?_ (mem_subtreesAll_children hc
        (mem_subtreesAll_of_mem (List.mem_singleton_self t))))
      simpa [mem_subtreesAll] using hs
    obtain ⟨s, hs, he⟩ := List.mem_map.1 (h t.entry (by simp [entries_cons]))
    have hl := congrArg Entry.label he
    have hsh := congrArg Entry.shell he
    have hcs := congrArg Entry.children he
    have hch : s.children = t.children :=
      children_eq_of_entry_eq hd (fun c hc => mem_subtreesAll_children hc hs) hchild hcs
    exact eq_of_shell_eq hl hsh hch ▸ hs

end Tree

end Formulary
