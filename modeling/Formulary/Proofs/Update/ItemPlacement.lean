import Formulary.Proofs.Document.ChildLists
import Formulary.Session

/-! # Putting one item into its place

The source of an item in running text stands among the children of one place `p`: it begins in
a string `z`, goes on through some children and ends in a string `w`, which may be `z` itself.
`Item.place` puts the typeset form there.  What is left of `z` stands before it and what is left
of `w` after it (`Remnant`); the children between are gone, and all others stay
(`place_within`, `place_across`). -/

namespace Formulary

namespace Document

open Formulary.Tree

section

variable {doc doc' : Document} {p : NodeId} {children before after : List NodeId}

/-- What is left of a text: nothing, or a string that holds it. -/
def Remnant (doc : Document) (ids : List NodeId) (chars : List Char) : Prop :=
  (chars = [] ∧ ids = []) ∨ ∃ id, ids = [id] ∧ doc.text? id = some (String.ofList chars)

theorem Remnant.reshaped {ids : List NodeId} {chars : List Char} (h : doc.Remnant ids chars)
    (hres : doc.Reshaped doc' p children) : doc'.Remnant ids chars := by
  rcases h with h | ⟨id, rfl, hs⟩
  · exact .inl h
  · exact .inr ⟨id, rfl, hres.text?_eq_some hs⟩

theorem followers_eq (h : doc.WellFormed) {c : NodeId} (hkids : doc.kids p = before ++ c :: after) :
    ∃ n, doc.get c = .ok n ∧ (n :: doc.followers c).map Tree.label = c :: after ∧
      ∀ m ∈ n :: doc.followers c, doc.find? m.label = some m := by
  have hc : c ∈ doc.kids p := by simp [hkids]
  obtain ⟨q, hq, hqmem, rfl⟩ := parent?_isSome h hc
  rw [h.kids_label hqmem] at hkids
  obtain ⟨ls, rs, hsplit, hls, hrs⟩ := List.map_eq_append_iff.1 hkids
  obtain ⟨n, rs', rfl, rfl, hrs'⟩ := List.map_eq_cons_iff.1 hrs
  have hnodup : (q.children.map Tree.label).Nodup := h.kids_label hqmem ▸ h.nodup_kids q.label
  have hnot : ∀ m ∈ ls, m.label ≠ n.label := by
    intro m hm hl
    rw [hsplit, List.map_append, List.map_cons, List.nodup_append] at hnodup
    exact hnodup.2.2 _ (List.mem_map_of_mem hm) _ (List.mem_cons_self ..) hl
  have hfollow : doc.followers n.label = rs' := by
    have hdrop : q.children.dropWhile (fun c => c.label ≠ n.label) = n :: rs' := by
      rw [hsplit, List.dropWhile_append_of_pos fun m hm => decide_eq_true (hnot m hm),
        List.dropWhile_cons_of_neg (by simp)]
    rw [followers, hq]
    simp only [hdrop, List.drop_one, List.tail_cons]
  have hfind : ∀ m ∈ n :: rs', doc.find? m.label = some m := fun m hm =>
    h.find?_label <| mem_subtreesAll_children (hsplit ▸ List.mem_append_right _ hm) hqmem
  refine ⟨n, WellFormed.get_eq (hfind n (List.mem_cons_self ..)), ?_, ?_⟩
  · rw [hfollow, List.map_cons, hrs']
  · rwa [hfollow]

end

end Document

namespace Item

open Document

section

variable {doc : Document} {p : NodeId} {before after : List NodeId}

/-! ### Where the source begins -/

/-- The source does not begin in a place, for a place at whose offset `offset` it is sought. -/
def passesOver (last : NodeId) (offset : Int) (n : Node) : Prop :=
  n.label ≠ last ∧ ¬(n.isText = true ∧ offset < n.value.length)

theorem firstPlace_cons {last : NodeId} {offset : Int} {n : Node} (h : passesOver last offset n)
    (rest : List Node) : firstPlace last offset (n :: rest) = firstPlace last 0 rest := by
  rw [firstPlace, if_neg]
  simpa [passesOver] using h

theorem firstPlace_append {last : NodeId} {skip : List Node}
    (h : ∀ n ∈ skip, passesOver last 0 n) (rest : List Node) :
    firstPlace last 0 (skip ++ rest) = firstPlace last 0 rest := by
  induction skip with
  | nil => rfl
  | cons n skip ih =>
    rw [List.cons_append, firstPlace_cons (h n (by simp)), ih fun m hm => h m (by simp [hm])]

/-- The offset in the place in which the source begins, when it is sought from an offset in an
earlier one. -/
def offsetAfter (skip : List NodeId) (offset : Int) : Int := if skip = [] then offset else 0

theorem firstPlace_eq {last : NodeId} {offset : Int} {skip : List Node} {z : Node}
    (rest : List Node)
    (hskip : ∀ n ∈ skip.head?, passesOver last offset n)
    (htail : ∀ n ∈ skip.tail, passesOver last 0 n)
    (hz : z.label = last ∨
      z.isText = true ∧ offsetAfter (skip.map Tree.label) offset < z.value.length) :
    firstPlace last offset (skip ++ z :: rest) =
      .ok (z, offsetAfter (skip.map Tree.label) offset) := by
  have hstop : ∀ o : Int, (z.label = last ∨ z.isText = true ∧ o < z.value.length) →
      firstPlace last o (z :: rest) = .ok (z, o) := by
    intro o ho
    rw [firstPlace, if_pos]
    simpa using ho
  cases skip with
  | nil => exact hstop offset hz
  | cons n skip =>
    have hover : ∀ m ∈ skip, passesOver last 0 m := htail
    rw [List.cons_append, firstPlace_cons (hskip n rfl), firstPlace_append hover]
    exact hstop 0 hz

/-! ### Cutting the source out -/

theorem removeUpTo_trimmed {last : NodeId} (h : doc.WellFormed) (ns : List Node) {mid : List NodeId}
    (hlabels : ns.map Tree.label = mid ++ last :: after)
    (hkids : doc.kids p = before ++ mid ++ last :: after) :
    ∃ doc', removeUpTo last doc ns = .ok doc' ∧
      doc.Trimmed doc' p (before ++ last :: after) := by
  induction mid generalizing doc ns with
  | nil =>
    obtain ⟨n, rest, rfl, hl, -⟩ := List.map_eq_cons_iff.1 hlabels
    rw [List.append_nil] at hkids
    refine ⟨doc, ?_, hkids ▸ Trimmed.refl h⟩
    rw [removeUpTo, if_pos hl]
  | cons c mid ih =>
    obtain ⟨n, rest, rfl, rfl, hrest⟩ := List.map_eq_cons_iff.1 hlabels
    have hp : p ∈ doc.ids := by
      refine (mem_ids_of_mem_kids (c := last) ?_).2
      simp [hkids]
    have hne : n.label ≠ last := by
      have hnodup := hkids ▸ h.nodup_kids p
      rw [List.append_assoc, List.nodup_append] at hnodup
      have := hnodup.2.1
      simp only [List.cons_append, List.nodup_cons, List.mem_append, List.mem_cons, not_or] at this
      exact this.1.2.1
    obtain ⟨doc₁, hremove, hres⟩ := remove_trimmed h
      (show doc.kids p = before ++ n.label :: (mid ++ last :: after) by simp [hkids])
    obtain ⟨doc₂, hrest₂, hres₂⟩ := ih hres.wellFormed rest hrest
      (by rw [hres.here, List.append_assoc])
    refine ⟨doc₂, ?_, hres.trans hres₂ hp⟩
    rw [removeUpTo, if_neg hne, hremove]
    exact hrest₂

theorem current_append (rs rs' : List Replacement) (u : NodeId) :
    Session.current (rs ++ rs') u = Session.current rs' (Session.current rs u) :=
  List.foldl_append ..

theorem current_singleton_self (z head : NodeId) : Session.current [(z, head)] z = head :=
  if_pos rfl

theorem current_singleton_of_ne {u z : NodeId} (h : u ≠ z) (head : NodeId) :
    Session.current [(z, head)] u = u := if_neg h

/-- Places of `doc`, or new ones, that have given way to new ones on the way to `doc'`.  A place
that has given way is no longer a child, and does not come up again. -/
structure Supplants (doc doc' : Document) (replaced : List Replacement) : Prop where
  source : ∀ r ∈ replaced, (∃ q, r.1 ∈ doc.kids q) ∨ doc.fresh ≤ r.1
  target : ∀ r ∈ replaced, doc.fresh ≤ r.2
  gone : ∀ r ∈ replaced, r.1 ∈ doc'.ids ∧ ∀ q, r.1 ∉ doc'.kids q
  once : replaced.Pairwise fun r r' => r.1 ≠ r'.1 ∧ r.1 ≠ r'.2
  proper : ∀ r ∈ replaced, r.1 ≠ r.2

theorem Supplants.nil (doc doc' : Document) : Supplants doc doc' [] :=
  ⟨by simp, by simp, by simp, .nil, by simp⟩

theorem Supplants.trans {doc₁ doc₂ : Document} {rs rs' : List Replacement}
    {children children' : List NodeId} (h : Supplants doc doc₁ rs) (h' : Supplants doc₁ doc₂ rs')
    (htrim : doc.Trimmed doc₁ p children) (htrim' : doc₁.Trimmed doc₂ p children') :
    Supplants doc doc₂ (rs ++ rs') := by
  have hfresh : ∀ r ∈ rs, ∀ id, doc₁.fresh ≤ id → r.1 ≠ id := fun r hr id hid heq =>
    htrim.wellFormed.fresh_not_mem hid (heq ▸ (h.gone r hr).1)
  refine ⟨fun r hr => ?_, fun r hr => ?_, fun r hr => ?_, ?_, fun r hr => ?_⟩
  · rcases List.mem_append.1 hr with hr | hr
    · exact h.source r hr
    · rcases h'.source r hr with ⟨q, hq⟩ | hle
      · exact htrim.mem_kids hq
      · exact .inr (Nat.le_trans htrim.fresh hle)
  · rcases List.mem_append.1 hr with hr | hr
    · exact h.target r hr
    · exact Nat.le_trans htrim.fresh (h'.target r hr)
  · rcases List.mem_append.1 hr with hr | hr
    · obtain ⟨hid, hnot⟩ := h.gone r hr
      refine ⟨htrim'.ids _ hid, fun q hq => ?_⟩
      rcases htrim'.mem_kids hq with ⟨q', hq'⟩ | hle
      · exact hnot q' hq'
      · exact hfresh r hr _ hle rfl
    · exact h'.gone r hr
  · refine List.pairwise_append.2 ⟨h.once, h'.once, fun r hr r' hr' => ⟨fun heq => ?_, ?_⟩⟩
    · rcases h'.source r' hr' with ⟨q, hq⟩ | hle
      · exact (h.gone r hr).2 q (heq ▸ hq)
      · exact hfresh r hr _ hle heq
    · exact hfresh r hr _ (h'.target r' hr')
  · exact (List.mem_append.1 hr).elim (h.proper r) (h'.proper r)

/-- A child that is cut into two strings has given way to the first one. -/
theorem supplants_split (h : doc.WellFormed) {doc' : Document} {z : NodeId}
    (hkids : doc.kids p = before ++ z :: after)
    (htrim : doc.Trimmed doc' p (before ++ doc.fresh :: (doc.fresh + 1) :: after)) :
    Supplants doc doc' [(z, doc.fresh)] := by
  have hz : z ∈ doc.kids p := by simp [hkids]
  have hid := (mem_ids_of_mem_kids hz).1
  have hne : ∀ id, doc.fresh ≤ id → z ≠ id := fun id hle heq => h.fresh_not_mem hle (heq ▸ hid)
  have hnodup := hkids ▸ h.nodup_kids p
  rw [List.nodup_append, List.nodup_cons] at hnodup
  refine ⟨?_, ?_, ?_, List.pairwise_singleton _ _, ?_⟩ <;>
    simp only [List.mem_singleton, forall_eq]
  · exact .inl ⟨p, hz⟩
  · exact Nat.le_refl _
  · refine ⟨htrim.ids _ hid, fun q hq => ?_⟩
    by_cases hqp : q = p
    · subst hqp
      rw [htrim.here] at hq
      simp only [List.mem_append, List.mem_cons] at hq
      rcases hq with hq | hq | hq | hq
      · exact hnodup.2.2 z hq z (List.mem_cons_self ..) rfl
      · exact hne _ (Nat.le_refl _) hq
      · exact hne _ (Nat.le_succ _) hq
      · exact hnodup.2.1.1 hq
    · by_cases hmem : q ∈ doc.ids
      · exact hqp (h.parent_unique (htrim.elsewhere q hmem hqp ▸ hq) hz)
      · rw [(htrim.added q (mem_ids_of_mem_kids hq).2 hmem).2] at hq
        cases hq
  · exact hne _ (Nat.le_refl _)

/-- The document `doc'` is `doc` with the first `b` characters of `z` in the places `left`, and what
is behind them in the place `id`. -/
structure CutBefore (doc doc' : Document) (p : NodeId) (before after : List NodeId) (z : Node)
    (b : Nat) (id : NodeId) (replaced : List Replacement) (left : List NodeId) : Prop where
  trimmed : doc.Trimmed doc' p (before ++ left ++ id :: after)
  remnant : doc'.Remnant left (z.value.toList.take b)
  new : ∀ u ∈ left, doc.fresh ≤ u
  other : ∀ u, u ≠ z.label → Session.current replaced u = u
  first : ∀ head, left = [head] → Session.current replaced z.label = head
  supplants : Supplants doc doc' replaced
  leaves : b ≠ 0 → left ≠ []

/-- The document `doc'` is `doc` with the first `e` characters of `w` in the place `v`, and what is
behind them in the places `right`. -/
structure CutAfter (doc doc' : Document) (p : NodeId) (before after : List NodeId) (w : Node)
    (e : Nat) (v : Node) (replaced : List Replacement) (right : List NodeId) : Prop where
  trimmed : doc.Trimmed doc' p (before ++ v.label :: (right ++ after))
  find : doc'.find? v.label = some v
  value : v.value.toList = w.value.toList.take e
  remnant : doc'.Remnant right (w.value.toList.drop e)
  new : ∀ u ∈ right, doc.fresh ≤ u
  origin : v.label = w.label ∨ doc.fresh ≤ v.label
  current : Session.current replaced w.label = v.label
  other : ∀ u, u ≠ w.label → Session.current replaced u = u
  supplants : Supplants doc doc' replaced

theorem exists_cutBefore (h : doc.WellFormed) {z : Node}
    (hkids : doc.kids p = before ++ z.label :: after) (hz : doc.find? z.label = some z) (b : Nat) :
    ∃ doc' id replaced left, dropBefore doc z.label b = .ok (doc', id, replaced) ∧
      CutBefore doc doc' p before after z b id replaced left := by
  by_cases hb : b = 0
  · subst hb
    refine ⟨doc, z.label, [], [], rfl, ?_, .inl ⟨List.take_zero, rfl⟩, by simp, fun _ _ => rfl,
      fun _ hnil => (by cases hnil), .nil doc doc, fun hne => absurd rfl hne⟩
    rw [List.append_nil, ← hkids]
    exact Trimmed.refl h
  · obtain ⟨doc', hsplit, hres, hhead, htail⟩ := split_trimmed h hkids hz b
    refine ⟨doc', doc.fresh + 1, [(z.label, doc.fresh)], [doc.fresh], ?_, ?_,
      .inr ⟨_, rfl, hhead⟩, by simp, fun u hu => current_singleton_of_ne hu _,
      fun head hsame => (current_singleton_self ..).trans (List.singleton_inj.1 hsame),
      supplants_split h hkids hres, fun _ => List.cons_ne_nil _ _⟩
    · rw [dropBefore, if_neg (by omega), hsplit]
      rfl
    · simpa using hres

theorem exists_cutAfter (h : doc.WellFormed) {w : Node}
    (hkids : doc.kids p = before ++ w.label :: after) (hw : doc.find? w.label = some w) (e : Nat) :
    ∃ doc' v replaced right, dropAfter doc w.label e = .ok (doc', v.label, replaced) ∧
      CutAfter doc doc' p before after w e v replaced right := by
  have hlen : w.value.length = w.value.toList.length := rfl
  by_cases hlt : e < w.value.toList.length
  · obtain ⟨doc', hsplit, hres, hhead, htail⟩ := split_trimmed h hkids hw e
    refine ⟨doc', .string doc.fresh .text (String.ofList (w.value.toList.take e)),
      [(w.label, doc.fresh)], [doc.fresh + 1], ?_, ?_, find?_of_text? hhead, String.toList_ofList,
      .inr ⟨_, rfl, htail⟩, fun u hu => ?_, .inr (Nat.le_refl _), current_singleton_self ..,
      fun u hu => current_singleton_of_ne hu _, supplants_split h hkids hres⟩
    · rw [dropAfter, WellFormed.get_eq hw]
      simp only [bind, Except.bind]
      rw [if_pos (by omega), hsplit]
      rfl
    · simpa [Tree.label] using hres
    · rw [List.mem_singleton.1 hu]
      exact Nat.le_succ _
  · refine ⟨doc, w, [], [], ?_, ?_, hw, (List.take_of_length_le (by omega)).symm,
      .inl ⟨List.drop_eq_nil_of_le (by omega), rfl⟩, by simp, .inl rfl, rfl, fun _ _ => rfl,
      .nil doc doc⟩
    · rw [dropAfter, WellFormed.get_eq hw]
      simp only [bind, Except.bind]
      rw [if_neg (by omega)]
      rfl
    · rw [List.nil_append, ← hkids]
      exact Trimmed.refl h

/-! ### Source and typeset form

`before` and `after` are the children of `p` around the source, `head` and `tail` the text of
its first string before and of its last string after it. -/

/-- The document `doc'` is `doc` with the place `id` where a source was that begins in `z` and
ends in `w`, between the places `left` and `right`, which hold what is left of these strings. -/
structure Placed (doc doc' : Document) (p : NodeId) (before after : List NodeId) (z w : NodeId)
    (head tail : List Char) (id : NodeId) (replaced : List Replacement)
    (left right : List NodeId) : Prop where
  reshaped : doc.Reshaped doc' p (before ++ left ++ id :: (right ++ after))
  remnantLeft : doc'.Remnant left head
  remnantRight : doc'.Remnant right tail
  new : ∀ v, v ∈ left ∨ v ∈ right → doc.fresh ≤ v
  other : ∀ u ∈ doc.ids, u ≠ z → u ≠ w → Session.current replaced u = u
  first : ∀ h, left = [h] → Session.current replaced z = h
  supplants : Supplants doc doc' replaced

section

variable {doc₁ doc₂ doc₃ : Document} {z w v : Node} {b e : Nat} {id : NodeId}
  {begins ends : List Replacement} {left right : List NodeId}

/-- The source is in one place: the text after it is cut off, then the text before it. -/
theorem CutAfter.placed (hafter : CutAfter doc doc₁ p before after w e v ends right)
    (hbefore : CutBefore doc₁ doc₂ p before (right ++ after) v b id begins left)
    (h : doc.WellFormed) (hp : p ∈ doc.ids) (hbe : b ≤ e) :
    Placed doc doc₂ p before after w.label w.label (w.value.toList.take b) (w.value.toList.drop e) id
      (ends ++ begins) left right where
  reshaped := (hafter.trimmed.trans hbefore.trimmed hp).toReshaped
  remnantLeft := by
    have hleft := hbefore.remnant
    rwa [hafter.value, List.take_take, Nat.min_eq_left hbe] at hleft
  remnantRight := hafter.remnant.reshaped hbefore.trimmed.toReshaped
  new := fun u hu => hu.elim (fun hu => Nat.le_trans hafter.trimmed.fresh (hbefore.new u hu))
    (hafter.new u)
  other := by
    intro u hu hne _
    have hne' : u ≠ v.label := by
      rcases hafter.origin with heq | hle
      · exact heq ▸ hne
      · exact fun hl => h.fresh_not_mem hle (hl ▸ hu)
    rw [current_append, hafter.other u hne, hbefore.other u hne']
  first := fun x hx => by rw [current_append, hafter.current, hbefore.first x hx]
  supplants := hafter.supplants.trans hbefore.supplants hafter.trimmed hbefore.trimmed

/-- The source is in several places: the text before it is cut off, the places between the first one
and the last one go, then the text after it is cut off. -/
theorem CutBefore.placed {mid : List NodeId}
    (hbefore : CutBefore doc doc₁ p before (mid ++ w.label :: after) z b id begins left)
    (hremoved : doc₁.Trimmed doc₂ p (before ++ left ++ w.label :: after))
    (hafter : CutAfter doc₂ doc₃ p (before ++ left) after w e v ends right)
    (h : doc.WellFormed) (hp : p ∈ doc.ids) (hw : w.label ∈ doc.ids) :
    doc.Trimmed doc₃ p (before ++ left ++ v.label :: (right ++ after)) ∧
      Placed doc doc₃ p before after z.label w.label (z.value.toList.take b) (w.value.toList.drop e)
        v.label (begins ++ ends) left right := by
  have hlater := hremoved.trans hafter.trimmed (hbefore.trimmed.ids p hp)
  have htrim := hbefore.trimmed.trans hlater hp
  exact ⟨htrim, {
    reshaped := htrim.toReshaped
    remnantLeft := hbefore.remnant.reshaped hlater.toReshaped
    remnantRight := hafter.remnant
    new := fun u hu => hu.elim (hbefore.new u) fun hu =>
      Nat.le_trans hbefore.trimmed.fresh (Nat.le_trans hremoved.fresh (hafter.new u hu))
    other := fun u _ hne hne' => by rw [current_append, hbefore.other u hne, hafter.other u hne']
    first := fun x hx => by
      have hne : x ≠ w.label := fun hl => h.fresh_not_mem (hbefore.new x (by simp [hx])) (hl ▸ hw)
      rw [current_append, hbefore.first x hx, hafter.other x hne]
    supplants := hbefore.supplants.trans
      ((Supplants.nil doc₁ doc₂).trans hafter.supplants hremoved hafter.trimmed) hbefore.trimmed
      hlater }⟩

end

/-- A place in which the source does not begin, if it is sought from the offset `offset` on. -/
def IsSilent (doc : Document) (offset : Int) (c : NodeId) : Prop :=
  ∀ n, doc.find? c = some n → ¬(n.isText = true ∧ offset < n.value.length)

theorem exists_firstPlace (h : doc.WellFormed) {skip : List NodeId} {y z last : NodeId}
    {offset : Int} (hkids : doc.kids p = before ++ (skip ++ z :: after))
    (hy : (skip ++ z :: after).head? = some y)
    (hskip : ∀ c ∈ skip.head?, IsSilent doc offset c)
    (htail : ∀ c ∈ skip.tail, IsSilent doc 0 c) (hlast : last ∉ skip)
    (hz : z = last ∨ ∃ n, doc.find? z = some n ∧ n.isText = true ∧
      offsetAfter skip offset < n.value.toList.length) :
    ∃ first node, doc.get y = .ok first ∧ node.label = z ∧
      firstPlace last offset (first :: doc.followers y) = .ok (node, offsetAfter skip offset) := by
  obtain ⟨rest, hrest⟩ := List.head?_eq_some_iff.1 hy
  obtain ⟨first, hget, hlabels, hfind⟩ := followers_eq h (hrest ▸ hkids)
  rw [← hrest] at hlabels
  obtain ⟨ns, ms, hsplit, hns, hms⟩ := List.map_eq_append_iff.1 hlabels
  obtain ⟨node, ms, rfl, rfl, -⟩ := List.map_eq_cons_iff.1 hms
  have hmem : ∀ n ∈ ns ++ node :: ms, doc.find? n.label = some n := hsplit ▸ hfind
  have hover : ∀ o n, n ∈ ns → IsSilent doc o n.label → passesOver last o n := fun o n hn hs =>
    ⟨fun hl => hlast (hns ▸ hl ▸ List.mem_map_of_mem hn), hs n (hmem n (by simp [hn]))⟩
  subst hns
  refine ⟨first, node, hget, rfl, ?_⟩
  rw [hsplit]
  refine firstPlace_eq ms (fun n hn => ?_) (fun n hn => ?_) ?_
  · exact hover offset n (List.mem_of_mem_head? hn) (hskip n.label (by
      rw [List.head?_map, hn]
      rfl))
  · exact hover 0 n (List.mem_of_mem_tail hn) (htail n.label (by
      rw [← List.map_tail]
      exact List.mem_map_of_mem hn))
  · refine hz.imp id fun ⟨n, hn, htext, hlt⟩ => ?_
    obtain rfl := Option.some.inj ((hmem node (by simp)).symm.trans hn)
    exact ⟨htext, hlt⟩

theorem isolate_within (h : doc.WellFormed) {skip : List NodeId} {y : NodeId} {w : Node}
    {offset : Int} (hkids : doc.kids p = before ++ (skip ++ w.label :: after))
    (hy : (skip ++ w.label :: after).head? = some y)
    (hskip : ∀ c ∈ skip.head?, IsSilent doc offset c) (htail : ∀ c ∈ skip.tail, IsSilent doc 0 c)
    (hw : doc.find? w.label = some w) {b e : Nat} (hb : offsetAfter skip offset = b)
    (hbe : b ≤ e) :
    ∃ doc' id replaced left right, isolate doc y offset w.label e = .ok (doc', id, replaced) ∧
      doc.Trimmed doc' p (before ++ skip ++ left ++ id :: (right ++ after)) ∧
      Placed doc doc' p (before ++ skip) after w.label w.label (w.value.toList.take b)
        (w.value.toList.drop e) id replaced left right ∧ (b ≠ 0 → left ≠ []) := by
  have hnodup := hkids ▸ h.nodup_kids p
  have hlast : w.label ∉ skip := fun hm => by
    rw [List.nodup_append] at hnodup
    exact (List.nodup_append.1 hnodup.2.1).2.2 _ hm _ (List.mem_cons_self ..) rfl
  obtain ⟨first, node, hget, hnode, hfirst⟩ :=
    exists_firstPlace h hkids hy hskip htail hlast (.inl rfl)
  have hp : p ∈ doc.ids := by
    refine (mem_ids_of_mem_kids (c := w.label) ?_).2
    simp [hkids]
  rw [← List.append_assoc] at hkids
  obtain ⟨doc₁, v, ends, right, hdropAfter, hafter⟩ := exists_cutAfter h hkids hw e
  obtain ⟨doc₂, id, begins, left, hdropBefore, hbefore⟩ :=
    exists_cutBefore hafter.trimmed.wellFormed hafter.trimmed.here hafter.find b
  refine ⟨doc₂, id, ends ++ begins, left, right, ?_, hafter.trimmed.trans hbefore.trimmed hp,
    hafter.placed hbefore h hp hbe, hbefore.leaves⟩
  simp only [isolate, hget, bind, Except.bind, hfirst, hnode, if_true, hdropAfter, hb, hdropBefore]
  rfl

theorem isolate_across (h : doc.WellFormed) {skip mid : List NodeId} {y : NodeId} {z w : Node}
    {offset : Int} (hkids : doc.kids p = before ++ (skip ++ z.label :: (mid ++ w.label :: after)))
    (hy : (skip ++ z.label :: (mid ++ w.label :: after)).head? = some y)
    (hskip : ∀ c ∈ skip.head?, IsSilent doc offset c) (htail : ∀ c ∈ skip.tail, IsSilent doc 0 c)
    (hz : doc.find? z.label = some z) (htext : z.isText = true)
    (hw : doc.find? w.label = some w) {b : Nat} (e : Nat) (hb : offsetAfter skip offset = b)
    (hbz : b < z.value.toList.length) :
    ∃ doc' id replaced left right, isolate doc y offset w.label e = .ok (doc', id, replaced) ∧
      doc.Trimmed doc' p (before ++ skip ++ left ++ id :: (right ++ after)) ∧
      Placed doc doc' p (before ++ skip) after z.label w.label (z.value.toList.take b)
        (w.value.toList.drop e) id replaced left right ∧ (b ≠ 0 → left ≠ []) := by
  have hnodup := hkids ▸ h.nodup_kids p
  rw [List.nodup_append] at hnodup
  have hlast : w.label ∉ skip := fun hm =>
    (List.nodup_append.1 hnodup.2.1).2.2 _ hm _ (by simp) rfl
  have hzw : z.label ≠ w.label := fun hl => by
    have := (List.nodup_append.1 hnodup.2.1).2.1
    rw [List.nodup_cons] at this
    exact this.1 (by simp [hl])
  obtain ⟨first, node, hget, hnode, hfirst⟩ :=
    exists_firstPlace h hkids hy hskip htail hlast (.inr ⟨z, hz, htext, by omega⟩)
  have hwmem : w.label ∈ doc.kids p := by simp [hkids]
  obtain ⟨hwid, hp⟩ := mem_ids_of_mem_kids hwmem
  rw [← List.append_assoc] at hkids
  obtain ⟨doc₁, id₁, begins, left, hdropBefore, hbefore⟩ := exists_cutBefore h hkids hz b
  have htrim₁ := hbefore.trimmed
  obtain ⟨first₁, hget₁, hlabels₁, -⟩ := followers_eq htrim₁.wellFormed htrim₁.here
  have hkids₁ : doc₁.kids p = before ++ skip ++ left ++ (id₁ :: mid) ++ w.label :: after := by
    simpa using htrim₁.here
  obtain ⟨doc₂, hremove, hremoved⟩ :=
    removeUpTo_trimmed htrim₁.wellFormed (first₁ :: doc₁.followers id₁) hlabels₁ hkids₁
  -- the place in which the source ends is as it was
  have hapart : doc.Apart p w.label := apart_of_mem_kids h hwmem
  have hw₂ : doc₂.find? w.label = some w := by
    rw [hremoved.find? htrim₁.wellFormed (htrim₁.ids _ hwid)
      (hapart.reshaped h hwid htrim₁.toReshaped), htrim₁.find? h hwid hapart, hw]
  obtain ⟨doc₃, v, ends, right, hdropAfter, hafter⟩ :=
    exists_cutAfter hremoved.wellFormed hremoved.here hw₂ e
  obtain ⟨htrim, hplaced⟩ := hbefore.placed hremoved hafter h hp hwid
  refine ⟨doc₃, v.label, begins ++ ends, left, right, ?_, htrim, hplaced, hbefore.leaves⟩
  simp only [isolate, hget, bind, Except.bind, hfirst, hnode, if_neg hzw, hb, hdropBefore, hget₁,
    hremove, hdropAfter]
  rfl

/-- The typeset form of an item is loose, and the place `p` is not in it. -/
structure Awaits (doc : Document) (rank : NodeId → Nat) (p c : NodeId) : Prop where
  loose : doc.IsLoose c
  ranked : doc.Ranked rank
  lower : rank p < rank c
  fresh : ∀ id, doc.fresh ≤ id → rank p < rank id

theorem Awaits.apart {rank : NodeId → Nat} {c : NodeId} (hc : Awaits doc rank p c)
    (h : doc.WellFormed) : doc.Apart p c := fun n hn => by
  obtain ⟨hmem, rfl⟩ := mem_of_find? hn
  exact Ranked.find?_eq_none h hc.ranked hmem hc.lower

/-- A loose place takes the place of a source that has been cut out. -/
theorem Placed.replace (h : doc.WellFormed) {doc' : Document} {z w id : NodeId}
    {head tail : List Char} {replaced : List Replacement} {left right : List NodeId}
    (htrim : doc.Trimmed doc' p (before ++ left ++ id :: (right ++ after)))
    (hplaced : Placed doc doc' p before after z w head tail id replaced left right)
    (hp : p ∈ doc.ids) {c : NodeId} (hloose : doc.IsLoose c) (hapart : doc.Apart p c) :
    ∃ doc'', (doc'.replace c id).toExcept = .ok doc'' ∧
      Placed doc doc'' p before after z w head tail c replaced left right := by
  obtain ⟨doc'', hreplace, hres⟩ := replace_reshaped htrim.wellFormed htrim.here
    (htrim.isLoose h hloose) (hapart.reshaped h hloose.mem_ids htrim.toReshaped)
  refine ⟨doc'', by rw [hreplace]; rfl, htrim.toReshaped.trans hres hp,
    hplaced.remnantLeft.reshaped hres, hplaced.remnantRight.reshaped hres, hplaced.new,
    hplaced.other, hplaced.first, ?_⟩
  have hsupp := hplaced.supplants
  refine ⟨hsupp.source, hsupp.target, fun r hr => ⟨hres.ids _ (hsupp.gone r hr).1, fun q hq => ?_⟩,
    hsupp.once, hsupp.proper⟩
  have hne : r.1 ≠ c := fun heq => by
    obtain ⟨hid, -, hnot⟩ := h.isLoose_iff.1 hloose
    exact (hsupp.source r hr).elim (fun ⟨q, hq⟩ => hnot q (heq ▸ hq))
      fun hle => h.fresh_not_mem hle (heq ▸ hid)
  rcases hres.mem_kids hq with hq | ⟨q', hq'⟩
  · have hkid : r.1 ∈ doc'.kids p := by
      rw [htrim.here]
      simp only [List.mem_append, List.mem_cons] at hq ⊢
      tauto
    exact (hsupp.gone r hr).2 p hkid
  · exact (hsupp.gone r hr).2 q' hq'

/-- The typeset form of an item takes the place of a source in one place. -/
theorem place_within (h : doc.WellFormed) {item : Item} (hitem : item.source.readsStrings = true)
    {c : NodeId} (hcontent : item.content = some c) (hloose : doc.IsLoose c)
    (hapart : doc.Apart p c) {skip : List NodeId} {y : NodeId} {w : Node}
    (hkids : doc.kids p = before ++ (skip ++ w.label :: after))
    (hy : (skip ++ w.label :: after).head? = some y)
    (hskip : ∀ c ∈ skip.head?, IsSilent doc item.start.offset c)
    (htail : ∀ c ∈ skip.tail, IsSilent doc 0 c) (hw : doc.find? w.label = some w) {b e : Nat}
    (hb : offsetAfter skip item.start.offset = b) (hstop : item.stop.offset = e) (hbe : b ≤ e) :
    ∃ doc' replaced left right, item.place doc y w.label = .ok (doc', c, replaced) ∧
      Placed doc doc' p (before ++ skip) after w.label w.label (w.value.toList.take b)
        (w.value.toList.drop e) c replaced left right ∧ (b ≠ 0 → left ≠ []) := by
  have hp : p ∈ doc.ids := by
    refine (mem_ids_of_mem_kids (c := w.label) ?_).2
    simp [hkids]
  obtain ⟨doc₁, id, replaced, left, right, hisolate, htrim, hplaced, hleaves⟩ :=
    isolate_within h hkids hy hskip htail hw hb hbe
  obtain ⟨doc₂, hreplace, hplaced₂⟩ := Placed.replace h htrim hplaced hp hloose hapart
  refine ⟨doc₂, replaced, left, right, ?_, hplaced₂, hleaves⟩
  simp only [place, hitem, if_true, hstop, hisolate, bind, Except.bind, hcontent, hreplace]
  rfl

/-- The typeset form of an item takes the place of a source in several places. -/
theorem place_across (h : doc.WellFormed) {item : Item} (hitem : item.source.readsStrings = true)
    {c : NodeId} (hcontent : item.content = some c) (hloose : doc.IsLoose c)
    (hapart : doc.Apart p c) {skip mid : List NodeId} {y : NodeId} {z w : Node}
    (hkids : doc.kids p = before ++ (skip ++ z.label :: (mid ++ w.label :: after)))
    (hy : (skip ++ z.label :: (mid ++ w.label :: after)).head? = some y)
    (hskip : ∀ c ∈ skip.head?, IsSilent doc item.start.offset c)
    (htail : ∀ c ∈ skip.tail, IsSilent doc 0 c) (hz : doc.find? z.label = some z)
    (htext : z.isText = true) (hw : doc.find? w.label = some w) {b e : Nat}
    (hb : offsetAfter skip item.start.offset = b) (hstop : item.stop.offset = e)
    (hbz : b < z.value.toList.length) :
    ∃ doc' replaced left right, item.place doc y w.label = .ok (doc', c, replaced) ∧
      Placed doc doc' p (before ++ skip) after z.label w.label (z.value.toList.take b)
        (w.value.toList.drop e) c replaced left right ∧ (b ≠ 0 → left ≠ []) := by
  have hp : p ∈ doc.ids := by
    refine (mem_ids_of_mem_kids (c := w.label) ?_).2
    simp [hkids]
  obtain ⟨doc₁, id, replaced, left, right, hisolate, htrim, hplaced, hleaves⟩ :=
    isolate_across h hkids hy hskip htail hz htext hw e hb hbz
  obtain ⟨doc₂, hreplace, hplaced₂⟩ := Placed.replace h htrim hplaced hp hloose hapart
  refine ⟨doc₂, replaced, left, right, ?_, hplaced₂, hleaves⟩
  simp only [place, hitem, if_true, hstop, hisolate, bind, Except.bind, hcontent, hreplace]
  rfl

/-- The typeset form of an item takes the place of an element. -/
theorem place_element (h : doc.WellFormed) {item : Item} (hitem : item.source.readsStrings = false)
    {c : NodeId} (hcontent : item.content = some c) (hloose : doc.IsLoose c)
    (hapart : doc.Apart p c) {m : NodeId} (hkids : doc.kids p = before ++ m :: after)
    (stop : NodeId) :
    ∃ doc', item.place doc m stop = .ok (doc', c, []) ∧
      doc.Reshaped doc' p (before ++ c :: after) := by
  obtain ⟨doc', hreplace, hres⟩ := replace_reshaped h hkids hloose hapart
  refine ⟨doc', ?_, hres⟩
  simp only [place, hitem, Bool.false_eq_true, if_false, bind, Except.bind, hcontent, hreplace]
  rfl

end

end Item

end Formulary
