import Formulary.Proofs.Session.ItemLife

/-! # Locations during an update

An update cuts the strings in which sources begin and end, and the items that are still to come are
told where to by the replacements.  Following these one by one comes to an end
(`Session.leadsTo_current`).

What an item needs to be put in is that its source stands where it stood (`Placement.Waits`), up to
what was cut from its last place.  Putting in an item leaves that to every item before it
(`Underway.exists_step`), and so do the items that an update puts in (`Underway.exists_run`), which
come last first. -/

namespace Formulary

open Formulary.Tree Document

/-! ### Following the replacements -/

namespace Session

/-- The replacements lead from a place to another one, which nothing has replaced, each of them
being the only one of its place. -/
inductive LeadsTo (replaced : List Replacement) : NodeId → NodeId → Prop
  | here {id : NodeId} (last : ∀ r ∈ replaced, r.1 ≠ id) : LeadsTo replaced id id
  | next {id next last : NodeId} (pair : (id, next) ∈ replaced)
      (only : ∀ r ∈ replaced, r.1 = id → r.2 = next) (rest : LeadsTo replaced next last) :
      LeadsTo replaced id last

theorem LeadsTo.cons {replaced : List Replacement} {r : Replacement} {id last : NodeId}
    (h : LeadsTo replaced id last) (hne : id ≠ r.1) (hnew : ∀ r' ∈ replaced, r.1 ≠ r'.2) :
    LeadsTo (r :: replaced) id last := by
  induction h with
  | here hlast => exact .here (List.forall_mem_cons.2 ⟨hne.symm, hlast⟩)
  | next pair only _ ih =>
    refine .next (List.mem_cons_of_mem _ pair) (List.forall_mem_cons.2 ⟨?_, only⟩)
      (ih (hnew _ pair).symm)
    exact fun heq => absurd heq.symm hne

/-- To follow the replacements is to come to an end, if no place that is replaced comes up
again. -/
theorem leadsTo_current {replaced : List Replacement}
    (honce : replaced.Pairwise fun r r' => r.1 ≠ r'.1 ∧ r.1 ≠ r'.2)
    (hproper : ∀ r ∈ replaced, r.1 ≠ r.2) (id : NodeId) :
    LeadsTo replaced id (current replaced id) := by
  induction replaced generalizing id with
  | nil => exact .here (by simp)
  | cons r rest ih =>
    obtain ⟨hrest, honce⟩ := List.pairwise_cons.1 honce
    obtain ⟨hr, hproper⟩ := List.forall_mem_cons.1 hproper
    have hnew : ∀ r' ∈ rest, r.1 ≠ r'.2 := fun r' hr' => (hrest r' hr').2
    rw [current_cons]
    by_cases hid : id = r.1
    · subst hid
      rw [Item.current_singleton_self]
      refine .next (List.mem_cons_self ..) (List.forall_mem_cons.2 ⟨fun _ => rfl, ?_⟩)
        ((ih honce hproper r.2).cons hr.symm hnew)
      exact fun r' hr' heq => absurd heq.symm (hrest r' hr').1
    · rw [Item.current_singleton_of_ne hid]
      exact (ih honce hproper id).cons hid hnew

end Session

/-! ### What is in the document -/

namespace Document

variable {doc doc' : Document} {p id : NodeId} {children : List NodeId}

/-- Children lead from the place `p` to the place `id`. -/
def Holds (doc : Document) (p id : NodeId) : Prop :=
  Relation.ReflTransGen (fun a b => b ∈ doc.kids a) p id

/-- The place is in the document and not only beside it. -/
def IsAttached (doc : Document) (id : NodeId) : Prop := doc.Holds doc.root.label id

theorem IsAttached.of_mem_kids (h : doc.IsAttached id) (hdoc : doc.WellFormed)
    (hid : id ∈ doc.kids p) : doc.IsAttached p := by
  rcases Relation.ReflTransGen.cases_tail h with heq | ⟨q, hq, hmem⟩
  · exact absurd (heq ▸ hid) (hdoc.root_not_mem_kids p)
  · exact hdoc.parent_unique hmem hid ▸ hq

theorem Apart.not_holds (h : doc.Apart id p) (hdoc : doc.WellFormed) (hp : p ∈ doc.ids) :
    ¬doc.Holds p id := by
  obtain ⟨n, hn⟩ := exists_of_mem_ids hp
  obtain ⟨hmem, rfl⟩ := mem_of_find? hn
  intro hholds
  suffices hin : ∃ m ∈ n.subtrees, m.label = id by
    obtain ⟨m, hm, hlabel⟩ := hin
    exact List.find?_eq_none.1 (h n hn) m hm (decide_eq_true hlabel)
  clear h
  induction hholds with
  | refl => exact ⟨n, n.self_mem_subtrees, rfl⟩
  | tail _ hkid ih =>
    obtain ⟨m, hm, rfl⟩ := ih
    rw [hdoc.kids_label (subtreesAll_trans hm hmem)] at hkid
    obtain ⟨c, hc, rfl⟩ := List.mem_map.1 hkid
    exact ⟨c, subtrees_trans (mem_subtrees_of_child hc c.self_mem_subtrees) hm, rfl⟩

theorem Holds.eq_of_kids_eq_nil (h : doc.Holds p id) (hkids : doc.kids p = []) : id = p := by
  rcases Relation.ReflTransGen.cases_head h with heq | ⟨q, hq, -⟩
  · exact heq.symm
  · rw [hkids] at hq
    cases hq

/-- What is in the document stays there, unless it is in a child that goes. -/
theorem IsAttached.reshaped (h : doc.IsAttached id) (hres : doc.Reshaped doc' p children)
    (hstays : ∀ c ∈ doc.kids p, c ∉ children → ¬doc.Holds c id) : doc'.IsAttached id := by
  suffices hor : doc'.IsAttached id ∨ ∃ c ∈ doc.kids p, c ∉ children ∧ doc.Holds c id from
    hor.resolve_right fun ⟨c, hc, hnot, hholds⟩ => hstays c hc hnot hholds
  clear hstays
  induction h with
  | refl => exact .inl (hres.root ▸ .refl)
  | @tail a b _ hkid ih =>
    rcases ih with hattached | ⟨c, hc, hnot, hholds⟩
    · by_cases hgone : a = p ∧ b ∉ children
      · obtain ⟨rfl, hnot⟩ := hgone
        exact .inr ⟨b, hkid, hnot, .refl⟩
      · refine .inl (hattached.tail ?_)
        by_cases hap : a = p
        · subst hap
          rw [hres.here]
          by_contra hnot
          exact hgone ⟨rfl, hnot⟩
        · rwa [hres.elsewhere a (mem_ids_of_mem_kids hkid).2 hap]
    · exact .inr ⟨c, hc, hnot, hholds.tail hkid⟩

end Document

theorem Document.Reshaped.find?_eq {doc₀ doc doc' : Document} {p c : NodeId}
    {children : List NodeId} (hres : doc.Reshaped doc' p children) (hdoc : doc.WellFormed)
    (hc : c ∈ doc₀.ids) (hapart : doc₀.Apart p c) (heq : doc.find? c = doc₀.find? c) :
    doc'.find? c = doc₀.find? c := by
  have hid : c ∈ doc.ids := by
    rw [← find?_isSome_iff, heq]
    exact find?_isSome_iff.2 hc
  exact (hres.find? hdoc hid fun n hn => hapart n (heq ▸ hn)).trans heq

namespace Item.Stretch

variable {doc₀ doc doc' : Document} {item : Item} {S : item.Stretch doc₀}
  {replaced rs : List Replacement} {cut : Option Nat} {behind behind' : List NodeId}

/-- The children before the place in which the source begins. -/
def before (S : item.Stretch doc₀) : List NodeId := S.ahead ++ S.skip

/-- The children before the place in which the source ends. -/
def upTo (S : item.Stretch doc₀) : List NodeId := S.before ++ S.init

/-- The places in which the source is sought. -/
def places (S : item.Stretch doc₀) : List NodeId := S.skip ++ S.init ++ [S.last.label]

theorem kids_eq (S : item.Stretch doc₀) :
    doc₀.kids S.host = S.upTo ++ S.last.label :: S.behind := by
  simp [S.kids, upTo, before]

theorem mem_ids (S : item.Stretch doc₀) {c : NodeId} (hc : c ∈ S.places) : c ∈ doc₀.ids := by
  refine (mem_ids_of_mem_kids (p := S.host) ?_).1
  simp only [places, List.mem_append, List.mem_singleton] at hc
  simp only [S.kids, List.mem_append, List.mem_cons]
  tauto

theorem kids_before (S : item.Stretch doc₀) :
    doc₀.kids S.host = S.before ++ (S.init ++ [S.last.label] ++ S.behind) := by
  simp [S.kids, before]

theorem first_mem (S : item.Stretch doc₀) : S.first.label ∈ S.init ++ [S.last.label] :=
  List.mem_of_mem_head? S.head

namespace Lasts

theorem kids_eq (L : S.Lasts replaced cut behind doc) :
    doc.kids S.host = S.upTo ++ Session.current replaced S.last.label :: behind := by
  simp [L.kids, upTo, before]

theorem kids_before (L : S.Lasts replaced cut behind doc) : doc.kids S.host =
    S.before ++ (S.init ++ [Session.current replaced S.last.label] ++ behind) := by
  simp [L.kids, before]

theorem first_mem (L : S.Lasts replaced cut behind doc) :
    Session.current replaced S.first.label ∈
      S.init ++ [Session.current replaced S.last.label] := by
  rcases List.mem_append.1 S.first_mem with h | h
  · rw [(L.same _ (List.mem_append_right _ h)).1]
    exact List.mem_append_left _ h
  · rw [List.mem_singleton.1 h]
    exact List.mem_append_right _ (List.mem_singleton_self _)

/-- A change at another place, or behind the source, leaves the source where it stands. -/
theorem kept (L : S.Lasts replaced cut behind doc) (hdoc : doc.WellFormed) {p : NodeId}
    {children : List NodeId} (hres : doc.Reshaped doc' p children)
    (hkids : doc'.kids S.host = S.upTo ++ Session.current replaced S.last.label :: behind')
    (hsame : ∀ c ∈ S.skip ++ S.init ++ [Session.current replaced S.last.label],
      Session.current rs c = c)
    (hapart : ∀ c ∈ S.places, doc₀.Apart p c) : S.Lasts (replaced ++ rs) cut behind' doc' := by
  have hcur := hsame _ (List.mem_append_right _ (List.mem_singleton_self _))
  have hfind : ∀ c ∈ S.places, doc.find? c = doc₀.find? c → doc'.find? c = doc₀.find? c :=
    fun c hc => hres.find?_eq hdoc (S.mem_ids hc) (hapart c hc)
  refine ⟨?_, fun c hc => ⟨?_, ?_⟩, ?_⟩
  · rw [Item.current_append, hcur, hkids]
    simp [upTo, before]
  · rw [Item.current_append, (L.same c hc).1, hsame c (List.mem_append_left _ hc)]
  · exact hfind c (List.mem_append_left _ hc) (L.same c hc).2
  · have hlast := L.last
    rw [Item.current_append, hcur]
    cases cut with
    | none =>
      refine ⟨hlast.1, (hfind _ (List.mem_append_right _ (List.mem_singleton_self _)) ?_).trans
        S.findLast⟩
      exact hlast.2.trans S.findLast.symm
    | some k => exact ⟨hlast.1, hres.text?_eq_some hlast.2⟩

end Lasts

end Item.Stretch

/-! ### Items to put in -/

/-- An item with a typeset form beside the document, and where its source stands. -/
structure Placement (doc₀ : Document) where
  item : Item
  root : NodeId
  stretch : item.Stretch doc₀
  /-- The place that holds the first character of the source, and the offset there. -/
  front : NodeId × Nat
  stage : item.stage = .typeset
  reads : item.source.readsStrings = true
  content : item.content = some root
  loose : doc₀.IsLoose root
  apart : doc₀.Apart stretch.host root
  reaches : 0 < stretch.reach
  /-- Only running text is cut where the first character is. -/
  opens : front = (stretch.first.label, stretch.offset) ∨ doc₀.text? front.1 = none
  fits : ∀ l, l = item.start ∨ l = item.stop → ∀ t s, l.node = some t → doc₀.text? t = some s →
    l.offset ≤ s.toList.length

namespace Placement

variable {doc₀ doc doc' : Document} {P Q : Placement doc₀} {done : List (Placement doc₀)}

/-- A source comes before another one: among the children of another place, in earlier children,
or in one that the other one begins in, and not beyond that.  Neither is in a place of the
other. -/
structure Precedes (P Q : Placement doc₀) : Prop where
  distinct : P.root ≠ Q.root
  apartRoot : doc₀.Apart Q.stretch.host P.root
  apart : ∀ c ∈ P.stretch.places, doc₀.Apart Q.stretch.host c
  apart' : ∀ c ∈ Q.stretch.places, doc₀.Apart P.stretch.host c
  order : P.stretch.host = Q.stretch.host →
    P.stretch.upTo ++ [P.stretch.last.label] <+: Q.stretch.before ∨
    P.stretch.upTo = Q.stretch.before ∧ P.stretch.last.label = Q.stretch.first.label ∧
      P.stretch.reach ≤ Q.stretch.offset ∧ Q.front = (Q.stretch.first.label, Q.stretch.offset)

/-- Where a place has been cut: at the offset at which the first of some sources begins that begins
in it. -/
def cutAt (done : List (Placement doc₀)) (id : NodeId) : Option Nat :=
  (done.map fun Q => (Q.stretch.first.label, Q.stretch.offset)).lookup id

theorem cutAt_cons_of_ne {id : NodeId} (h : Q.stretch.first.label ≠ id) :
    cutAt (Q :: done) id = cutAt done id := by
  rw [cutAt, List.map_cons, List.lookup_cons, beq_eq_false_iff_ne.2 h.symm]
  rfl

theorem cutAt_cons_self : cutAt (Q :: done) Q.stretch.first.label = some Q.stretch.offset := by
  rw [cutAt, List.map_cons, List.lookup_cons_self]

/-! ### A source while another one is replaced -/

/-- One step of an update takes the document `doc` to `doc'` and replaces the source of `Q` there,
with `left` and `right` around its typeset form. -/
structure Replaces (Q : Placement doc₀) (doc doc' : Document) (replaced rs : List Replacement)
    (cut : Option Nat) (tail : List Char) (behind left right : List NodeId) : Prop where
  lasts : Q.stretch.Lasts replaced cut behind doc
  placed : Item.Placed doc doc' Q.stretch.host Q.stretch.before behind
    (Session.current replaced Q.stretch.first.label)
    (Session.current replaced Q.stretch.last.label)
    (Q.stretch.first.value.toList.take Q.stretch.offset) tail Q.root rs left right
  leaves : Q.stretch.offset ≠ 0 → left ≠ []

theorem first_mem_kids (Q : Placement doc₀) :
    Q.stretch.first.label ∈ doc₀.kids Q.stretch.host := by
  rw [Q.stretch.kids_before]
  exact List.mem_append_right _ (List.mem_append_left _ Q.stretch.first_mem)

theorem first_ne (hdoc₀ : doc₀.WellFormed) {c : NodeId} (hc : c ∈ Q.stretch.before) :
    Q.stretch.first.label ≠ c := by
  rintro rfl
  have hnodup := Q.stretch.kids_before ▸ hdoc₀.nodup_kids Q.stretch.host
  exact (List.nodup_append.1 hnodup).2.2 _ hc _ (List.mem_append_left _ Q.stretch.first_mem) rfl

section

variable {replaced rs : List Replacement} {cut : Option Nat} {tail : List Char}
  {behind behindP left right : List NodeId}

namespace Replaces

theorem current_eq_self (hQ : Q.Replaces doc doc' replaced rs cut tail behind left right)
    (hdoc : doc.WellFormed) {c : NodeId} (hc : c ∈ Q.stretch.before) :
    Session.current rs c = c := by
  have hnodup := hQ.lasts.kids_before ▸ hdoc.nodup_kids Q.stretch.host
  have hne : ∀ z ∈ Q.stretch.init ++ [Session.current replaced Q.stretch.last.label], c ≠ z :=
    fun z hz => (List.nodup_append.1 hnodup).2.2 c hc z (List.mem_append_left _ hz)
  have hid : c ∈ doc.ids := by
    refine (mem_ids_of_mem_kids (p := Q.stretch.host) ?_).1
    rw [hQ.lasts.kids_before]
    exact List.mem_append_left _ hc
  exact hQ.placed.other c hid (hne _ hQ.lasts.first_mem)
    (hne _ (List.mem_append_right _ (List.mem_singleton_self _)))

theorem current_eq_self_of_ne (hQ : Q.Replaces doc doc' replaced rs cut tail behind left right)
    (hdoc : doc.WellFormed) {c p : NodeId} (hc : c ∈ doc.kids p) (hne : p ≠ Q.stretch.host) :
    Session.current rs c = c := by
  have hkid : ∀ z ∈ Q.stretch.init ++ [Session.current replaced Q.stretch.last.label], c ≠ z := by
    rintro z hz rfl
    refine hne (hdoc.parent_unique hc ?_)
    rw [hQ.lasts.kids_before]
    exact List.mem_append_right _ (List.mem_append_left _ hz)
  exact hQ.placed.other c (mem_ids_of_mem_kids hc).1 (hkid _ hQ.lasts.first_mem)
    (hkid _ (List.mem_append_right _ (List.mem_singleton_self _)))

/-- A source that ends in an earlier child stands on: that child is not cut. -/
theorem exists_lasts_of_before (hQ : Q.Replaces doc doc' replaced rs cut tail behind left right)
    (hdoc₀ : doc₀.WellFormed) (hdoc : doc.WellFormed)
    (LP : P.stretch.Lasts replaced (cutAt done P.stretch.last.label) behindP doc)
    (hapart : ∀ c ∈ P.stretch.places, doc₀.Apart Q.stretch.host c)
    (hhost : P.stretch.host = Q.stretch.host)
    (hbefore : P.stretch.upTo ++ [P.stretch.last.label] <+: Q.stretch.before) :
    ∃ behind, P.stretch.Lasts (replaced ++ rs) (cutAt (Q :: done) P.stretch.last.label) behind
      doc' := by
  obtain ⟨rest, hrest⟩ := hbefore
  have hself : Session.current replaced P.stretch.last.label = P.stretch.last.label := by
    have hkids := hQ.lasts.kids_before
    rw [← hhost, LP.kids_eq, ← hrest] at hkids
    simp only [List.append_assoc, List.singleton_append] at hkids
    exact (List.cons.inj (List.append_cancel_left hkids)).1
  have hin : ∀ c ∈ P.stretch.skip ++ P.stretch.init ++ [P.stretch.last.label],
      c ∈ Q.stretch.before := fun c hc => by
    rw [← hrest, Item.Stretch.upTo, Item.Stretch.before]
    simp only [List.mem_append] at hc ⊢
    tauto
  refine ⟨rest ++ left ++ Q.root :: (right ++ behind), ?_⟩
  rw [cutAt_cons_of_ne (first_ne hdoc₀ (hin _ (by simp)))]
  refine LP.kept hdoc hQ.placed.reshaped ?_ (fun c hc => ?_) hapart
  · rw [hhost, hQ.placed.reshaped.here, ← hrest, hself]
    simp
  · exact hQ.current_eq_self hdoc (hin c (hself ▸ hc))

/-- A source that ends in the child in which the other one begins stands on: that child is cut
where the other one begins. -/
theorem exists_lasts_of_within (hQ : Q.Replaces doc doc' replaced rs cut tail behind left right)
    (hdoc : doc.WellFormed)
    (LP : P.stretch.Lasts replaced (cutAt done P.stretch.last.label) behindP doc)
    (hapart : ∀ c ∈ P.stretch.places, doc₀.Apart Q.stretch.host c)
    (hhost : P.stretch.host = Q.stretch.host) (hupTo : P.stretch.upTo = Q.stretch.before)
    (hlabel : P.stretch.last.label = Q.stretch.first.label)
    (hle : P.stretch.reach ≤ Q.stretch.offset) :
    ∃ behind, P.stretch.Lasts (replaced ++ rs) (cutAt (Q :: done) P.stretch.last.label) behind
      doc' := by
  have hpos : Q.stretch.offset ≠ 0 := by
    have := P.reaches
    omega
  obtain ⟨x, rfl, htext⟩ := hQ.placed.remnantLeft.resolve_left fun hnil => hQ.leaves hpos hnil.2
  have hnode : P.stretch.last = Q.stretch.first := by
    have hfind := P.stretch.findLast
    rw [hlabel, Q.stretch.findFirst] at hfind
    exact (Option.some.inj hfind).symm
  have hcur : Session.current (replaced ++ rs) P.stretch.last.label = x := by
    rw [Item.current_append, hlabel]
    exact hQ.placed.first x rfl
  have hin : ∀ c ∈ P.stretch.skip ++ P.stretch.init, c ∈ Q.stretch.before := fun c hc => by
    rw [← hupTo, Item.Stretch.upTo, Item.Stretch.before]
    simp only [List.mem_append] at hc ⊢
    tauto
  refine ⟨Q.root :: (right ++ behind), ?_, fun c hc => ⟨?_, ?_⟩, ?_⟩
  · rw [hhost, hQ.placed.reshaped.here, ← hupTo, hcur]
    simp [Item.Stretch.upTo, Item.Stretch.before]
  · rw [Item.current_append, (LP.same c hc).1]
    exact hQ.current_eq_self hdoc (hin c hc)
  · have hmem : c ∈ P.stretch.places := List.mem_append_left _ hc
    exact hQ.placed.reshaped.find?_eq hdoc (P.stretch.mem_ids hmem) (hapart c hmem)
      (LP.same c hc).2
  · rw [hlabel, cutAt_cons_self, ← hlabel, hcur, hnode]
    exact ⟨hle, htext⟩

theorem exists_lasts_of_ne (hQ : Q.Replaces doc doc' replaced rs cut tail behind left right)
    (hdoc₀ : doc₀.WellFormed) (hdoc : doc.WellFormed)
    (LP : P.stretch.Lasts replaced (cutAt done P.stretch.last.label) behindP doc)
    (hapart : ∀ c ∈ P.stretch.places, doc₀.Apart Q.stretch.host c)
    (hhost : P.stretch.host ≠ Q.stretch.host) :
    ∃ behind, P.stretch.Lasts (replaced ++ rs) (cutAt (Q :: done) P.stretch.last.label) behind
      doc' := by
  have hlast : P.stretch.last.label ∈ doc₀.kids P.stretch.host := by simp [P.stretch.kids_eq]
  refine ⟨behindP, ?_⟩
  rw [cutAt_cons_of_ne fun heq => hhost (hdoc₀.parent_unique (heq ▸ hlast) Q.first_mem_kids)]
  have hkids : doc'.kids P.stretch.host = doc.kids P.stretch.host := by
    refine hQ.placed.reshaped.elsewhere _ ?_ hhost
    exact (mem_ids_of_mem_kids (c := Session.current replaced P.stretch.last.label)
      (by simp [LP.kids_eq])).2
  refine LP.kept hdoc hQ.placed.reshaped (hkids.trans LP.kids_eq) (fun c hc => ?_) hapart
  refine hQ.current_eq_self_of_ne hdoc (p := P.stretch.host) ?_ hhost
  rw [LP.kids]
  simp only [List.mem_append, List.mem_cons] at hc ⊢
  tauto

/-- A source stands on where it stood when one that comes after it is replaced. -/
theorem exists_lasts (hQ : Q.Replaces doc doc' replaced rs cut tail behind left right)
    (h : P.Precedes Q) (hdoc₀ : doc₀.WellFormed) (hdoc : doc.WellFormed)
    (LP : P.stretch.Lasts replaced (cutAt done P.stretch.last.label) behindP doc) :
    ∃ behind, P.stretch.Lasts (replaced ++ rs) (cutAt (Q :: done) P.stretch.last.label) behind
      doc' := by
  by_cases hhost : P.stretch.host = Q.stretch.host
  · rcases h.order hhost with hbefore | ⟨hupTo, hlabel, hle, -⟩
    · exact hQ.exists_lasts_of_before hdoc₀ hdoc LP h.apart hhost hbefore
    · exact hQ.exists_lasts_of_within hdoc LP h.apart hhost hupTo hlabel hle
  · exact hQ.exists_lasts_of_ne hdoc₀ hdoc LP h.apart hhost

theorem child_cases (hQ : Q.Replaces doc doc' replaced rs cut tail behind left right) {c : NodeId}
    (hc : c ∈ Q.stretch.before ++ left ++ Q.root :: (right ++ behind)) :
    c ∈ doc.kids Q.stretch.host ∨ doc.fresh ≤ c ∨ c = Q.root := by
  have hnew := hQ.placed.new c
  rw [hQ.lasts.kids_before]
  simp only [List.mem_append, List.mem_cons] at hc ⊢
  tauto

end Replaces

end

/-! ### An update on its way -/

/-- An item waits for its turn: its source stands where it stood, its typeset form is beside the
document as it was, and was not replaced. -/
structure Waits (P : Placement doc₀) (done : List (Placement doc₀)) (u : Session.Updating) :
    Prop where
  lasts : ∃ behind, P.stretch.Lasts u.replaced (cutAt done P.stretch.last.label) behind
    u.session.document
  loose : u.session.document.IsLoose P.root
  find : u.session.document.find? P.root = doc₀.find? P.root
  kept : ∀ r ∈ u.replaced, r.1 ≠ P.root
  attached : doc₀.IsAttached P.stretch.host → u.session.document.IsAttached P.stretch.host

end Placement

/-- The place where a source stands is not in a source that comes after it. -/
theorem Placement.Precedes.not_holds {doc₀ doc : Document} {P Q : Placement doc₀}
    (h : P.Precedes Q) (hdoc : doc.WellFormed) {replaced : List Replacement}
    {cutP cutQ : Option Nat} {behindP behindQ : List NodeId}
    (LP : P.stretch.Lasts replaced cutP behindP doc)
    (LQ : Q.stretch.Lasts replaced cutQ behindQ doc) {c : NodeId}
    (hc : c ∈ Q.stretch.init ++ [Session.current replaced Q.stretch.last.label]) :
    ¬doc.Holds c P.stretch.host := by
  have hkid : c ∈ doc.kids Q.stretch.host := by
    rw [LQ.kids_before]
    exact List.mem_append_right _ (List.mem_append_left _ hc)
  have hapart : ∀ x ∈ Q.stretch.places, doc.find? x = doc₀.find? x →
      doc.Apart P.stretch.host x := fun x hx hfind n hn => h.apart' x hx n (hfind ▸ hn)
  rcases List.mem_append.1 hc with hinit | hlast
  · have hplace : c ∈ Q.stretch.skip ++ Q.stretch.init := List.mem_append_right _ hinit
    exact (hapart c (List.mem_append_left _ hplace) (LQ.same c hplace).2).not_holds hdoc
      (mem_ids_of_mem_kids hkid).1
  · obtain rfl := List.mem_singleton.1 hlast
    have hlast := LQ.last
    cases cutQ with
    | none =>
      rw [hlast.1] at hkid ⊢
      have hplace : Q.stretch.last.label ∈ Q.stretch.places := by simp [Item.Stretch.places]
      exact (hapart _ hplace (hlast.2.trans Q.stretch.findLast.symm)).not_holds hdoc
        (mem_ids_of_mem_kids hkid).1
    | some k =>
      intro hholds
      have hkids := kids_of_text? hlast.2
      have heq := hholds.eq_of_kids_eq_nil hkids
      rw [← heq, LP.kids_eq] at hkids
      simp at hkids

/-! ### Pending locations -/

theorem Document.text?_congr {doc doc' : Document} {id : NodeId}
    (h : doc'.find? id = doc.find? id) : doc'.text? id = doc.text? id := by
  rw [Document.text?, Document.text?, Document.shell?, Document.shell?, h]

/-- The place `now` stands among the children of `p` where `t` stood, with the text of `t` up to
the cut, if there is one. -/
structure Document.Succeeds (doc₀ doc : Document) (p t now : NodeId) (cut : Option Nat) :
    Prop where
  place : ∃ ahead behind behind', doc₀.kids p = ahead ++ t :: behind ∧
    doc.kids p = ahead ++ now :: behind'
  text : ∀ s, doc₀.text? t = some s → ∃ s', doc.text? now = some s' ∧
    s'.toList = s.toList.take (cut.getD s.toList.length)

namespace Item.Stretch

variable {doc : Document} {item : Item}

theorem start_eq (S : item.Stretch doc) : item.start.node = S.places.head? := by
  rw [S.start, places]
  cases S.skip with
  | nil => exact S.head.symm
  | cons y skip => rfl

theorem mem_upTo_of_eq (S : item.Stretch doc) {t : NodeId} {rest : List NodeId}
    (hrest : S.skip ++ S.init = t :: rest) : t ∈ S.upTo := by
  rw [upTo, before, List.append_assoc, hrest]
  simp

/-- A location is in a place before the one in which the source ends, or in that one, not beyond
the end. -/
theorem location_cases (S : item.Stretch doc) {l : Location NodeId}
    (hl : l = item.start ∨ l = item.stop) {t : NodeId} (ht : l.node = some t) :
    (∃ rest, S.skip ++ S.init = t :: rest) ∨ t = S.last.label ∧ l.offset ≤ S.reach := by
  rcases hl with rfl | rfl
  · rw [S.start_eq, places] at ht
    cases hplaces : S.skip ++ S.init with
    | cons y rest =>
      rw [hplaces] at ht
      exact .inl ⟨rest, congrArg (· :: rest) (Option.some.inj ht)⟩
    | nil =>
      rw [hplaces] at ht
      obtain ⟨hskip, hinit⟩ := List.append_eq_nil_iff.1 hplaces
      have hoffset := S.startOffset
      rw [hskip, offsetAfter, if_pos rfl] at hoffset
      have := S.within hinit
      exact .inr ⟨(Option.some.inj ht).symm, by omega⟩
  · exact .inr ⟨Option.some.inj (ht.symm.trans S.stop), Int.le_of_eq S.stopOffset⟩

namespace Lasts

variable {doc' : Document} {S : item.Stretch doc} {replaced : List Replacement} {cut : Option Nat}
  {behind : List NodeId}

theorem succeeds_of_eq (L : S.Lasts replaced cut behind doc') {t : NodeId} {rest : List NodeId}
    (hrest : S.skip ++ S.init = t :: rest) :
    doc.Succeeds doc' S.host t (Session.current replaced t) none := by
  obtain ⟨hcur, hfind⟩ := L.same t (by simp [hrest])
  refine ⟨⟨S.ahead, rest ++ S.last.label :: S.behind, rest ++
    Session.current replaced S.last.label :: behind, ?_, ?_⟩, fun s hs => ⟨s, ?_, ?_⟩⟩
  · rw [S.kids, ← List.append_assoc S.skip, hrest]
    rfl
  · rw [L.kids, ← List.append_assoc S.skip, hrest, hcur]
    rfl
  · rw [hcur, Document.text?_congr hfind, hs]
  · rw [Option.getD_none, List.take_length]

/-- The place in which the source ends gives way to one with its text up to the cut. -/
theorem succeeds_last (L : S.Lasts replaced cut behind doc') :
    doc.Succeeds doc' S.host S.last.label (Session.current replaced S.last.label) cut := by
  refine ⟨⟨S.upTo, S.behind, behind, S.kids_eq, L.kids_eq⟩, fun s hs => ?_⟩
  have hlast := L.last
  cases cut with
  | none =>
    refine ⟨s, ?_, ?_⟩
    · rw [hlast.1, Document.text?_congr (hlast.2.trans S.findLast.symm), hs]
    · rw [Option.getD_none, List.take_length]
  | some k =>
    have hvalue : S.last.value = s := by
      have hfind := S.findLast
      rw [find?_of_text? hs, Option.some.injEq] at hfind
      rw [← hfind]
      rfl
    exact ⟨_, hlast.2, hvalue ▸ String.toList_ofList⟩

end Lasts

end Item.Stretch

namespace Placement

variable {doc₀ : Document} {P Q : Placement doc₀} {done : List (Placement doc₀)}
  {u : Session.Updating}

theorem Precedes.first_ne (h : P.Precedes Q) (hdoc₀ : doc₀.WellFormed) {t : NodeId}
    (ht : t ∈ P.stretch.upTo) : Q.stretch.first.label ≠ t := by
  by_cases hhost : P.stretch.host = Q.stretch.host
  · refine Placement.first_ne hdoc₀ ?_
    rcases h.order hhost with ⟨rest, hrest⟩ | ⟨heq, -⟩
    · rw [← hrest]
      simp [ht]
    · exact heq ▸ ht
  · rintro rfl
    refine hhost (hdoc₀.parent_unique ?_ Q.first_mem_kids)
    rw [P.stretch.kids_eq]
    exact List.mem_append_left _ ht

/-- If it begins in that place, then with its first character. -/
theorem Precedes.first_ne_last (h : P.Precedes Q) (hdoc₀ : doc₀.WellFormed)
    (hfront : Q.front ≠ (Q.stretch.first.label, Q.stretch.offset)) :
    Q.stretch.first.label ≠ P.stretch.last.label := by
  by_cases hhost : P.stretch.host = Q.stretch.host
  · rcases h.order hhost with ⟨rest, hrest⟩ | ⟨-, -, -, heq⟩
    · refine Placement.first_ne hdoc₀ ?_
      rw [← hrest]
      simp
    · exact absurd heq hfront
  · intro heq
    have hlast : P.stretch.last.label ∈ doc₀.kids P.stretch.host := by simp [P.stretch.kids_eq]
    exact hhost (hdoc₀.parent_unique hlast (heq ▸ Q.first_mem_kids))

theorem cutAt_eq_none {t : NodeId} (h : ∀ Q ∈ done, Q.stretch.first.label ≠ t) :
    cutAt done t = none := by
  induction done with
  | nil => rfl
  | cons Q done ih =>
    obtain ⟨hQ, hdone⟩ := List.forall_mem_cons.1 h
    rw [cutAt_cons_of_ne hQ, ih hdone]

/-- A string in which a pending location is has been cut where the first character of a source
is. -/
theorem lookup_front (hdoc₀ : doc₀.WellFormed) (hlater : ∀ Q ∈ done, P.Precedes Q)
    {l : Location NodeId} (hl : l = P.item.start ∨ l = P.item.stop) {t : NodeId}
    (ht : l.node = some t) {s : String} (hs : doc₀.text? t = some s) :
    (done.map front).lookup t = cutAt done t := by
  induction done with
  | nil => rfl
  | cons Q done ih =>
    obtain ⟨hPQ, hlater⟩ := List.forall_mem_cons.1 hlater
    rw [List.map_cons]
    by_cases hfront : Q.front = (Q.stretch.first.label, Q.stretch.offset)
    · rw [hfront, List.lookup_cons, ih hlater]
      rfl
    · have hmute := Q.opens.resolve_left hfront
      have hne : t ≠ Q.front.1 := by
        rintro rfl
        rw [hs] at hmute
        cases hmute
      rw [List.lookup_cons, beq_eq_false_iff_ne.2 hne, cutAt_cons_of_ne]
      · exact ih hlater
      · rcases P.stretch.location_cases hl ht with ⟨rest, hrest⟩ | ⟨rfl, -⟩
        · exact hPQ.first_ne hdoc₀ (P.stretch.mem_upTo_of_eq hrest)
        · exact hPQ.first_ne_last hdoc₀ hfront

/-- What a pending location is in stands where it stood, cut at most behind the location. -/
theorem Waits.succeeds (h : P.Waits done u) (hdoc₀ : doc₀.WellFormed)
    (hlater : ∀ Q ∈ done, P.Precedes Q) {l : Location NodeId}
    (hl : l = P.item.start ∨ l = P.item.stop) {t : NodeId} (ht : l.node = some t) :
    doc₀.Succeeds u.session.document P.stretch.host t (Session.current u.replaced t)
      (cutAt done t) ∧ ∀ k, cutAt done t = some k → l.offset ≤ k := by
  obtain ⟨behind, L⟩ := h.lasts
  rcases P.stretch.location_cases hl ht with ⟨rest, hrest⟩ | ⟨rfl, hle⟩
  · have hmem := P.stretch.mem_upTo_of_eq hrest
    rw [cutAt_eq_none fun Q hQ => (hlater Q hQ).first_ne hdoc₀ hmem]
    exact ⟨L.succeeds_of_eq hrest, fun k hk => by cases hk⟩
  · refine ⟨L.succeeds_last, fun k hk => ?_⟩
    have hlast := L.last
    rw [hk] at hlast
    have hreach := hlast.1
    omega

/-- A string in which a pending location is gives way to what stands in its place with its text up
to where the most recent source begins in it.  The offset is not beyond that. -/
theorem Waits.location (h : P.Waits done u) (hdoc₀ : doc₀.WellFormed)
    (hlater : ∀ Q ∈ done, P.Precedes Q) {l : Location NodeId}
    (hl : l = P.item.start ∨ l = P.item.stop) {t : NodeId} (ht : l.node = some t) {s : String}
    (hs : doc₀.text? t = some s) :
    (doc₀.IsAttached t → u.session.document.IsAttached (Session.current u.replaced t)) ∧
    (∃ ahead behind behind', doc₀.kids P.stretch.host = ahead ++ t :: behind ∧
      u.session.document.kids P.stretch.host =
        ahead ++ Session.current u.replaced t :: behind') ∧
    ∃ s', u.session.document.text? (Session.current u.replaced t) = some s' ∧
      s'.toList = s.toList.take ((cutAt done t).getD s.toList.length) ∧
      l.offset ≤ s'.toList.length := by
  obtain ⟨hsucceeds, hcut⟩ := h.succeeds hdoc₀ hlater hl ht
  obtain ⟨ahead, behind, behind', hkids₀, hkids⟩ := hsucceeds.place
  obtain ⟨s', hs', htake⟩ := hsucceeds.text s hs
  refine ⟨fun hattached => ?_, hsucceeds.place, s', hs', htake, ?_⟩
  · exact (h.attached (hattached.of_mem_kids hdoc₀ (by simp [hkids₀]))).tail (by simp [hkids])
  · have hfits := P.fits l hl t s ht hs
    rw [htake, List.length_take]
    cases hk : cutAt done t with
    | none =>
      rw [Option.getD_none, Nat.min_self]
      exact hfits
    | some k =>
      have hle := hcut k hk
      rw [Option.getD_some]
      omega

end Placement

/-! ### One step of an update -/

/-- What was replaced is a child of nothing, was replaced once, and not by itself. -/
structure Document.Retired (doc : Document) (replaced : List Replacement) : Prop where
  gone : ∀ r ∈ replaced, r.1 ∈ doc.ids ∧ ∀ q, r.1 ∉ doc.kids q
  once : replaced.Pairwise fun r r' => r.1 ≠ r'.1 ∧ r.1 ≠ r'.2
  proper : ∀ r ∈ replaced, r.1 ≠ r.2

namespace Placement.Replaces

variable {doc₀ doc' : Document} {P Q : Placement doc₀} {done : List (Placement doc₀)}
  {u u' : Session.Updating} {rs : List Replacement} {cut : Option Nat} {tail : List Char}
  {behind left right : List NodeId}

theorem retired
    (hQ : Q.Replaces u.session.document doc' u.replaced rs cut tail behind left right)
    (hdoc : u.session.document.WellFormed) (h : u.session.document.Retired u.replaced)
    (hkept : ∀ r ∈ u.replaced, r.1 ≠ Q.root) : doc'.Retired (u.replaced ++ rs) := by
  have hres := hQ.placed.reshaped
  have hsupp := hQ.placed.supplants
  have hfresh : ∀ r ∈ u.replaced, ∀ id, u.session.document.fresh ≤ id → r.1 ≠ id :=
    fun r hr id hid heq => hdoc.fresh_not_mem hid (heq ▸ (h.gone r hr).1)
  refine ⟨fun r hr => ?_, ?_, fun r hr => ?_⟩
  · rcases List.mem_append.1 hr with hr | hr
    · obtain ⟨hid, hnot⟩ := h.gone r hr
      refine ⟨hres.ids _ hid, fun q hq => ?_⟩
      rcases hres.mem_kids hq with hq | ⟨q', hq'⟩
      · rcases hQ.child_cases hq with hq | hle | heq
        · exact hnot _ hq
        · exact hfresh r hr _ hle rfl
        · exact hkept r hr heq
      · exact hnot q' hq'
    · exact hsupp.gone r hr
  · refine List.pairwise_append.2 ⟨h.once, hsupp.once, fun r hr r' hr' => ⟨fun heq => ?_, ?_⟩⟩
    · rcases hsupp.source r' hr' with ⟨q, hq⟩ | hle
      · exact (h.gone r hr).2 q (heq ▸ hq)
      · exact hfresh r hr _ hle heq
    · exact hfresh r hr _ (hsupp.target r' hr')
  · exact (List.mem_append.1 hr).elim (h.proper r) (hsupp.proper r)

theorem waits
    (hQ : Q.Replaces u.session.document doc' u.replaced rs cut tail behind left right)
    (hdoc₀ : doc₀.WellFormed) (hdoc : u.session.document.WellFormed) (h : P.Waits done u)
    (hPQ : P.Precedes Q) (hdocument : u'.session.document = doc')
    (hreplaced : u'.replaced = u.replaced ++ rs) : P.Waits (Q :: done) u' := by
  subst hdocument
  have hres := hQ.placed.reshaped
  obtain ⟨⟨behindP, LP⟩, hloose, hfind, hkept, hattached⟩ := h
  obtain ⟨hid, -, hnot⟩ := hdoc.isLoose_iff.1 hloose
  refine ⟨hreplaced ▸ hQ.exists_lasts hPQ hdoc₀ hdoc LP,
    hres.isLoose hdoc hloose fun hmem => ?_,
    hres.find?_eq hdoc P.loose.mem_ids hPQ.apartRoot hfind, fun r hr heq => ?_,
    fun h₀ => (hattached h₀).reshaped hres fun c hc hnot => ?_⟩
  · rcases hQ.child_cases hmem with hkid | hle | heq
    · exact hnot _ hkid
    · exact hdoc.fresh_not_mem hle hid
    · exact hPQ.distinct heq
  · rcases List.mem_append.1 (hreplaced ▸ hr) with hr | hr
    · exact hkept r hr heq
    · rcases hQ.placed.supplants.source r hr with ⟨q, hq⟩ | hle
      · exact hnot q (heq ▸ hq)
      · exact hdoc.fresh_not_mem hle (heq ▸ hid)
  · -- what goes is in the source of `Q`
    refine hPQ.not_holds hdoc LP hQ.lasts ?_
    rw [hQ.lasts.kids_before] at hc
    simp only [Item.Stretch.before, List.mem_append, List.mem_cons] at hc hnot ⊢
    tauto

end Placement.Replaces

/-! ### All steps -/

/-- An update of `doc₀` has put in the items `done`, the most recent first, and those of `pending`
wait. -/
structure Underway (doc₀ : Document) (done pending : List (Placement doc₀))
    (u : Session.Updating) : Prop where
  wellFormed : u.session.document.WellFormed
  retired : u.session.document.Retired u.replaced
  waits : ∀ P ∈ pending, P.Waits done u

namespace Underway

variable {doc₀ : Document} {done pending : List (Placement doc₀)} {u : Session.Updating}

theorem start {s : Session} (hdoc : s.document.WellFormed)
    (pending : List (Placement s.document)) :
    Underway s.document [] pending { session := s } where
  wellFormed := hdoc
  retired := ⟨by simp, .nil, by simp⟩
  waits := fun P _ => ⟨⟨_, P.stretch.lasts_of_extends (.refl hdoc)⟩, P.loose, rfl, by simp, id⟩

/-- One item more. -/
theorem exists_step {Q : Placement doc₀} (h : Underway doc₀ done (Q :: pending) u)
    (hdoc₀ : doc₀.WellFormed) (hlater : ∀ P ∈ pending, P.Precedes Q) :
    ∃ u', u.step Q.item = .ok u' ∧ Underway doc₀ (Q :: done) pending u' := by
  have hdoc := h.wellFormed
  obtain ⟨⟨behind, LQ⟩, hloose, hfind, hkept, -⟩ := h.waits Q (List.mem_cons_self ..)
  obtain ⟨start, doc', rs, left, right, hstart, hstop, hplace, hplaced, hleaves⟩ :=
    LQ.exists_placed hdoc
      (show (movedItem u.replaced Q.item).source.readsStrings = true from Q.reads) rfl rfl Q.content
      hloose fun n hn => Q.apart n (hfind ▸ hn)
  have hQ : Q.Replaces u.session.document doc' u.replaced rs _ _ behind left right :=
    ⟨LQ, hplaced, hleaves⟩
  have hstage : (movedItem u.replaced Q.item).stage ≠ .inserted := by
    rw [movedItem, Q.stage]
    decide
  exact ⟨_, step_eq Q.stage Q.stretch.isResolved (Item.update_eq hstage hstart hstop hplace),
    hplaced.reshaped.wellFormed, hQ.retired hdoc h.retired hkept, fun P hP =>
      hQ.waits hdoc₀ hdoc (h.waits P (List.mem_cons_of_mem _ hP)) (hlater P hP) rfl rfl⟩

/-- Items are put in one after the other, the last one of the document first. -/
theorem exists_run (hdoc₀ : doc₀.WellFormed) {placed : List (Placement doc₀)}
    (h : Underway doc₀ done (placed ++ pending) u)
    (horder : (placed ++ pending).Pairwise fun Q P => P.Precedes Q) :
    ∃ u', u.run (placed.map Placement.item) = .ok u' ∧
      Underway doc₀ (placed.reverse ++ done) pending u' := by
  induction placed generalizing done u with
  | nil => exact ⟨u, rfl, h⟩
  | cons Q rest ih =>
    obtain ⟨hlater, horder⟩ := List.pairwise_cons.1 horder
    obtain ⟨u₁, hstep, h₁⟩ := h.exists_step hdoc₀ hlater
    obtain ⟨u₂, hrun, h₂⟩ := ih h₁ horder
    refine ⟨u₂, ?_, ?_⟩
    · rw [List.map_cons, Session.Updating.run, hstep]
      exact hrun
    · rw [List.reverse_cons, List.append_assoc]
      exact h₂

end Underway

end Formulary
