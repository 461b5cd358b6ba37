import Formulary.Proofs.Update.RenderingSteps

/-! # A whole update

Every item that is to be put into a document has a target: a stretch of one of the blocks, or an
element (`Target`, `Aims`).  An update puts all of them in (`update_rendering`), provided that the
stretches do not overlap and the items come in the order of their stretches.  It passes over items
that are not typeset (`Session.update_unset`). -/

namespace Formulary

open Formulary.Tree Document

section

variable {doc₀ doc : Document} {blocks : List Block} {rank : NodeId → Nat} {xs : List Insertion}
  {swap : NodeId → NodeId} {replaced : List Replacement} {shown : NodeId → List NodeId}

/-! ### The step for an element -/

/-- The element `m`, which is in no block, has given way to `root`. -/
structure Exchanged (doc₀ : Document) (blocks : List Block) (rank : NodeId → Nat)
    (swap : NodeId → NodeId) (doc : Document) (shown : NodeId → List NodeId) (m root : NodeId)
    (doc' : Document) where
  /-- The place among whose children the element is. -/
  host : NodeId
  ahead : List NodeId
  behind : List NodeId
  kids : doc₀.kids host = ahead ++ m :: behind
  outside : m ∉ blocks.flatten.map Piece.node
  pending : swap m = m
  awaits : Item.Awaits doc rank host root
  reshaped : doc.Reshaped doc' host (ahead.flatMap shown ++ root :: behind.flatMap shown)

/-- The typeset form of an item takes the place of an element. -/
theorem Rendering.exists_exchanged (R : Rendering doc₀ blocks rank xs swap doc replaced shown)
    {m root p : NodeId} (hm : m ∈ doc₀.kids p) (hout : m ∉ blocks.flatten.map Piece.node)
    (hswap : swap m = m) {item : Item} (hreads : item.source.readsStrings = false)
    (hcontent : item.content = some root) (hstage : item.stage ≠ .inserted)
    (hstart : item.start.node = some m) {stop : NodeId} (hstop : item.stop.node = some stop)
    (hawaits : Item.Awaits doc rank p root) :
    ∃ doc', item.update doc = .ok (doc', item.inserted root, []) ∧
      Nonempty (Exchanged doc₀ blocks rank swap doc shown m root doc') := by
  obtain ⟨ahead, behind, hkids⟩ := List.append_of_mem hm
  have hp := (mem_ids_of_mem_kids hm).2
  have hdoc : doc.kids p = ahead.flatMap shown ++ m :: behind.flatMap shown := by
    rw [R.kids p hp, hkids, List.flatMap_append, List.flatMap_cons,
      (R.other m (mem_ids_of_mem_kids hm).1 hout).1, hswap]
    rfl
  obtain ⟨doc', hplace, hres⟩ :=
    Item.place_element R.wellFormed hreads hcontent hawaits.loose (hawaits.apart R.wellFormed) hdoc
      stop
  exact ⟨doc', Item.update_eq hstage hstart hstop hplace,
    ⟨p, ahead, behind, hkids, hout, hswap, hawaits, hres⟩⟩

namespace Exchanged

variable {m root : NodeId} {doc' : Document}

/-- What stands for a place with the element given way to its typeset form. -/
def shownAfter (_ : Exchanged doc₀ blocks rank swap doc shown m root doc') (id : NodeId) :
    List NodeId := if id = m then [root] else shown id

theorem mem_kids (X : Exchanged doc₀ blocks rank swap doc shown m root doc') :
    m ∈ doc₀.kids X.host := by simp [X.kids]

theorem host_mem (X : Exchanged doc₀ blocks rank swap doc shown m root doc') :
    X.host ∈ doc₀.ids := (mem_ids_of_mem_kids X.mem_kids).2

theorem shownAfter_of_ne (X : Exchanged doc₀ blocks rank swap doc shown m root doc') {id : NodeId}
    (h : id ≠ m) : X.shownAfter id = shown id := if_neg h

theorem flatMap_of_not_mem (X : Exchanged doc₀ blocks rank swap doc shown m root doc')
    {ids : List NodeId} (h : m ∉ ids) : ids.flatMap X.shownAfter = ids.flatMap shown := by
  rw [List.flatMap_def, List.flatMap_def,
    List.map_congr_left fun id hid => X.shownAfter_of_ne fun heq => h (heq ▸ hid)]

theorem ne_root (X : Exchanged doc₀ blocks rank swap doc shown m root doc')
    (R : Rendering doc₀ blocks rank xs swap doc replaced shown) : m ≠ root := by
  have hself : shown m = [m] := by
    rw [(R.other m (mem_ids_of_mem_kids X.mem_kids).1 X.outside).1, X.pending]
  have hm : m ∈ doc.kids X.host := by
    rw [R.kids X.host X.host_mem]
    exact List.mem_flatMap.2 ⟨m, X.mem_kids, hself ▸ List.mem_singleton_self m⟩
  rintro rfl
  exact (R.wellFormed.isLoose_iff.1 X.awaits.loose).2.2 X.host hm

theorem kids_after (X : Exchanged doc₀ blocks rank swap doc shown m root doc')
    (R : Rendering doc₀ blocks rank xs swap doc replaced shown) (hdoc₀ : doc₀.WellFormed)
    {p : NodeId} (hp : p ∈ doc₀.ids) : doc'.kids p = (doc₀.kids p).flatMap X.shownAfter := by
  by_cases hhost : p = X.host
  · subst hhost
    have hnodup := X.kids ▸ hdoc₀.nodup_kids X.host
    rw [List.nodup_append, List.nodup_cons] at hnodup
    have hself : X.shownAfter m = [root] := if_pos rfl
    rw [X.reshaped.here, X.kids, List.flatMap_append, List.flatMap_cons, hself,
      X.flatMap_of_not_mem fun hm => hnodup.2.2 m hm m (List.mem_cons_self ..) rfl,
      X.flatMap_of_not_mem hnodup.2.1.1]
    rfl
  · rw [X.reshaped.elsewhere p (R.ids p hp) hhost, R.kids p hp, X.flatMap_of_not_mem fun hm =>
      hhost (hdoc₀.parent_unique hm X.mem_kids)]

theorem mem_shownAfter (X : Exchanged doc₀ blocks rank swap doc shown m root doc') {u v : NodeId}
    (hv : v ∈ X.shownAfter u) : v = root ∨ v ∈ shown u := by
  rw [shownAfter] at hv
  split at hv
  · exact .inl (List.mem_singleton.1 hv)
  · exact .inr hv

theorem isLoose_after (X : Exchanged doc₀ blocks rank swap doc shown m root doc')
    (R : Rendering doc₀ blocks rank xs swap doc replaced shown) (hdoc₀ : doc₀.WellFormed)
    {c : NodeId} (hc : doc.IsLoose c) (hne : c ≠ root) : doc'.IsLoose c := by
  obtain ⟨-, -, hkids⟩ := R.wellFormed.isLoose_iff.1 hc
  have hres := X.reshaped
  refine hres.isLoose R.wellFormed hc fun hm => ?_
  rw [← hres.here, X.kids_after R hdoc₀ X.host_mem] at hm
  obtain ⟨u, hu, hv⟩ := List.mem_flatMap.1 hm
  rcases X.mem_shownAfter hv with hv | hv
  · exact hne hv
  · exact hkids X.host (R.kids X.host X.host_mem ▸ List.mem_flatMap.2 ⟨u, hu, hv⟩)

theorem piece_ne (X : Exchanged doc₀ blocks rank swap doc shown m root doc') {u : Occurrence}
    (hu : u ∈ occurrences blocks) : u.piece.node ≠ m := fun heq => X.outside <| by
  rw [← occurrences_map_node]
  exact heq ▸ List.mem_map_of_mem (f := fun u : Occurrence => u.piece.node) hu

end Exchanged

theorem Rendering.exchange (R : Rendering doc₀ blocks rank xs swap doc replaced shown)
    (hdoc₀ : doc₀.WellFormed) (layout : Layout doc₀ blocks) {m root : NodeId} {doc' : Document}
    (htextroot : doc.text? root = none)
    (X : Exchanged doc₀ blocks rank swap doc shown m root doc') :
    Rendering doc₀ blocks rank xs (fun id => if id = m then root else swap id) doc' replaced
      X.shownAfter where
  wellFormed := X.reshaped.wellFormed
  root := X.reshaped.root.trans R.root
  fresh := Nat.le_trans R.fresh X.reshaped.fresh
  ids := fun id hid => X.reshaped.ids id (R.ids id hid)
  shell := fun id hid => (X.reshaped.shell id (R.ids id hid)).trans (R.shell id hid)
  ranked := by
    refine R.ranked.reshaped X.reshaped fun c hc => ?_
    rw [← X.reshaped.here, X.kids_after R hdoc₀ X.host_mem] at hc
    obtain ⟨u, hu, hv⟩ := List.mem_flatMap.1 hc
    rcases X.mem_shownAfter hv with rfl | hv
    · exact X.awaits.lower
    · exact R.ranked X.host c (R.kids X.host X.host_mem ▸ List.mem_flatMap.2 ⟨u, hu, hv⟩)
  kids := fun _ hp => X.kids_after R hdoc₀ hp
  added := R.added_reshaped X.reshaped X.host_mem
  own := fun u v hv => by
    have hstays : ∀ v ∈ doc.ids, doc.text? v = none → v ∈ doc'.ids ∧ doc'.text? v = none :=
      fun v hid htext => ⟨X.reshaped.ids v hid, (X.reshaped.text? hid).trans htext⟩
    rcases X.mem_shownAfter hv with rfl | hv
    · refine .inr (.inr ⟨.inr ⟨m, X.ne_root R, if_pos rfl⟩, ?_⟩)
      exact hstays _ X.awaits.loose.mem_ids htextroot
    · refine (R.own u v hv).imp id (Or.imp id fun ⟨hput, h⟩ => ⟨?_, hstays v h.1 h.2⟩)
      refine hput.imp id fun ⟨id, hne, hswap⟩ => ⟨id, hne, ?_⟩
      have hnot : id ≠ m := fun heq => hne (by rw [← hswap, heq, X.pending])
      exact (if_neg hnot).trans hswap
  text := fun u hu htext => by
    obtain ⟨p, hp⟩ := layout.exists_parent hu
    rw [X.shownAfter_of_ne (X.piece_ne hu), ← R.text u hu htext]
    exact X.reshaped.flatMap_symbols fun v hv => R.mem_ids_of_mem_shown hp hv
  mute := fun u hu htext => by
    rw [X.shownAfter_of_ne (X.piece_ne hu), R.mute u hu htext]
  front := fun u hu htext hfree => by
    obtain ⟨n, rest, hshown, hs, hn⟩ := R.front u hu htext hfree
    rw [X.shownAfter_of_ne (X.piece_ne hu)]
    exact ⟨n, rest, hshown, X.reshaped.text?_eq_some hs, hn⟩
  untouched := fun u hu hfree => by
    rw [X.shownAfter_of_ne (X.piece_ne hu)]
    exact R.untouched u hu hfree
  other := fun id hid hnot => by
    obtain ⟨hshown, hcur⟩ := R.other id hid hnot
    refine ⟨?_, hcur⟩
    rw [Exchanged.shownAfter]
    split
    · rfl
    · exact hshown

end

/-! ### Targets -/

/-- What gives way to the typeset form of an item. -/
inductive Target where
  | stretch (x : Insertion)
  | element (m root : NodeId)
deriving DecidableEq, Repr, Inhabited

namespace Target

/-- The typeset form. -/
def root : Target → NodeId
  | stretch x => x.root
  | element _ root => root

/-- The stretches among some targets. -/
def insertions : List Target → List Insertion
  | [] => []
  | stretch x :: rest => x :: insertions rest
  | element _ _ :: rest => insertions rest

/-- What has taken the place of an element. -/
def swap : List Target → NodeId → NodeId
  | [], id => id
  | stretch _ :: rest, id => swap rest id
  | element m root :: rest, id => if id = m then root else swap rest id

/-- One target may come before another one. -/
def Precedes : Target → Target → Prop
  | stretch x, stretch y => y.string = x.string → x.stop ≤ y.start
  | element m _, element m' _ => m ≠ m'
  | _, _ => True

theorem mem_insertions {x : Insertion} {targets : List Target} :
    x ∈ insertions targets ↔ stretch x ∈ targets := by
  induction targets with
  | nil => simp [insertions]
  | cons t rest ih =>
    cases t with
    | stretch y => simp [insertions, ih]
    | element m root => simp [insertions, ih]

theorem swap_of_not_mem {m : NodeId} {targets : List Target}
    (h : ∀ root, element m root ∉ targets) : swap targets m = m := by
  induction targets with
  | nil => rfl
  | cons t rest ih =>
    have hrest := ih fun root hm => h root (List.mem_cons_of_mem _ hm)
    cases t with
    | stretch y => exact hrest
    | element m' root =>
      have hne : m ≠ m' := fun heq => h root (by simp [heq])
      rw [swap, if_neg hne, hrest]

end Target

/-- What is put among the children of `p` does not hold `p`. -/
structure Beneath (doc₀ : Document) (rank : NodeId → Nat) (p root : NodeId) : Prop where
  lower : rank p < rank root
  fresh : ∀ id, doc₀.fresh ≤ id → rank p < rank id

/-- The item is to be put into the document in place of its target. -/
structure Aims (doc₀ : Document) (blocks : List Block) (rank : NodeId → Nat) (item : Item)
    (target : Target) : Prop where
  stage : item.stage = .typeset
  content : item.content = some target.root
  ends : match target with
    | .stretch x => item.source.readsStrings = true ∧ ∃ block p ahead behind opener closer,
        IsSource blocks block x ∧ item.start = locate block.runs x.start opener ∧
        item.stop = locate block.runs x.stop closer ∧
        doc₀.kids p = ahead ++ block.map Piece.node ++ behind ∧ Beneath doc₀ rank p x.root
    | .element m root => item.source.readsStrings = false ∧ item.start.node = some m ∧
        item.stop.node = some m ∧ m ∉ blocks.flatten.map Piece.node ∧
        ∃ p, m ∈ doc₀.kids p ∧ Beneath doc₀ rank p root

section

variable {doc₀ : Document} {blocks : List Block} {rank : NodeId → Nat}

/-- A session in the middle of an update, with the items for the targets `targets` put in. -/
structure Progressed (doc₀ : Document) (blocks : List Block) (rank : NodeId → Nat)
    (targets : List Target) (u : Session.Updating) : Prop where
  rendering : ∃ shown, Rendering doc₀ blocks rank (Target.insertions targets)
    (Target.swap targets) u.session.document u.replaced shown

/-- The item with its ends where the replacements lead. -/
def movedItem (replaced : List Replacement) (item : Item) : Item :=
  { item with
    start := Session.moved replaced item.start
    stop := Session.moved replaced item.stop }

theorem step_eq {u : Session.Updating} {item : Item} (hstage : item.stage = .typeset)
    (hresolved : item.isResolved = true) {doc' : Document} {root : NodeId} {rs : List Replacement}
    (hupdate : (movedItem u.replaced item).update u.session.document =
      .ok (doc', (movedItem u.replaced item).inserted root, rs)) :
    u.step item = .ok {
      session := { u.session with document := doc' }
      replaced := u.replaced ++ rs
      done := item.inserted root :: u.done } := by
  have hrank : ¬item.stage.rank < Stage.typeset.rank := by
    rw [hstage]
    decide
  rw [movedItem] at hupdate
  rw [Session.Updating.step, if_neg hrank, if_pos hresolved]
  simp only [hupdate, bind, Except.bind]
  rfl

theorem isResolved_of_ends {block : Block} {x : Insertion} (hx : IsSource blocks block x)
    {item : Item} {opener closer : String} (hstart : item.start = locate block.runs x.start opener)
    (hstop : item.stop = locate block.runs x.stop closer) : item.isResolved = true := by
  obtain ⟨before, skip, core, after, span⟩ := Block.exists_span hx.lt hx.le
  obtain ⟨y, -, hbegins⟩ := span.begins
  obtain ⟨init, w, -, -, -, hends⟩ := span.last
  rw [Item.isResolved, hstart, hstop, hbegins, hends]
  rfl

theorem step_progressed (hdoc₀ : doc₀.WellFormed) (layout : Layout doc₀ blocks)
    {targets : List Target} {u : Session.Updating}
    (hu : Progressed doc₀ blocks rank targets u) {item : Item} {target : Target}
    (haims : Aims doc₀ blocks rank item target) (horder : ∀ t ∈ targets, target.Precedes t)
    (hloose : u.session.document.IsLoose target.root)
    (htext : u.session.document.text? target.root = none) :
    ∃ u', u.step item = .ok u' ∧ Progressed doc₀ blocks rank (target :: targets) u' ∧
      u'.done = item.inserted target.root :: u.done ∧
      u'.session = { u.session with document := u'.session.document } ∧
      (∀ c, u.session.document.IsLoose c → u.session.document.text? c = none → c ≠ target.root →
        u'.session.document.IsLoose c ∧ u'.session.document.text? c = none) := by
  obtain ⟨shown, R⟩ := hu.rendering
  have hawaits : ∀ p, Beneath doc₀ rank p target.root →
      Item.Awaits u.session.document rank p target.root := fun p hp =>
    ⟨hloose, R.ranked, hp.lower, fun id hid => hp.fresh id (Nat.le_trans R.fresh hid)⟩
  have hstage : (movedItem u.replaced item).stage ≠ .inserted := by
    rw [movedItem, haims.stage]
    decide
  have hends := haims.ends
  cases target with
  | stretch x =>
    obtain ⟨hreads, block, p, ahead, behind, opener, closer, hx, hstart, hstop, hkids, hp⟩ := hends
    have hlater : ∀ y ∈ Target.insertions targets, y.string = x.string → x.stop ≤ y.start :=
      fun y hy => horder _ (Target.mem_insertions.1 hy)
    obtain ⟨doc', rs, hupdate, ⟨I⟩⟩ := R.exists_inserted layout hx hlater
      (show (movedItem u.replaced item).source.readsStrings = true from hreads) haims.content hstage
      (congrArg (Session.moved u.replaced) hstart) (congrArg (Session.moved u.replaced) hstop)
      hkids (hawaits p hp)
    refine ⟨_, step_eq haims.stage (isResolved_of_ends hx hstart hstop) hupdate,
      ⟨I.shownAfter, R.insert hdoc₀ layout hx hlater htext I⟩, rfl, rfl, fun c hc hct hne => ?_⟩
    exact ⟨I.isLoose_after R hdoc₀ hx hlater hc hne,
      (I.placed.reshaped.text? hc.mem_ids).trans hct⟩
  | element m root =>
    obtain ⟨hreads, hstart, hstop, hout, p, hm, hp⟩ := hends
    have hmid := (mem_ids_of_mem_kids hm).1
    have hswap : Target.swap targets m = m := Target.swap_of_not_mem fun root' hroot' =>
      horder _ hroot' rfl
    have hmoved : ∀ {l : Location NodeId}, l.node = some m →
        (Session.moved u.replaced l).node = some m := fun hl => by
      rw [Session.moved, hl, Option.map_some, (R.other m hmid hout).2]
    have hresolved : item.isResolved = true := by
      rw [Item.isResolved, hstart, hstop]
      rfl
    obtain ⟨doc', hupdate, ⟨X⟩⟩ := R.exists_exchanged hm hout hswap
      (show (movedItem u.replaced item).source.readsStrings = false from hreads) haims.content
      hstage (hmoved hstart) (hmoved hstop) (hawaits p hp)
    refine ⟨_, step_eq haims.stage hresolved hupdate,
      ⟨X.shownAfter, ?_⟩, rfl, rfl, fun c hc hct hne => ?_⟩
    · rw [List.append_nil]
      exact R.exchange hdoc₀ layout htext X
    · exact ⟨X.isLoose_after R hdoc₀ hc hne, (X.reshaped.text? hc.mem_ids).trans hct⟩

/-- Items are put in one after the other, the last one of the document first. -/
theorem run_progressed (hdoc₀ : doc₀.WellFormed) (layout : Layout doc₀ blocks)
    {items : List Item} {pending : List Target}
    (haims : List.Forall₂ (Aims doc₀ blocks rank) items pending) {targets : List Target}
    (horder : (pending.reverse ++ targets).Pairwise Target.Precedes)
    (hroots : (pending.map Target.root).Nodup) {u : Session.Updating}
    (hu : Progressed doc₀ blocks rank targets u)
    (hwaits : ∀ t ∈ pending, u.session.document.IsLoose t.root ∧
      u.session.document.text? t.root = none) :
    ∃ u', u.run items = .ok u' ∧ Progressed doc₀ blocks rank (pending.reverse ++ targets) u' ∧
      u'.done = (List.zipWith (fun (item : Item) (t : Target) => item.inserted t.root) items
        pending).reverse ++ u.done ∧
      u'.session = { u.session with document := u'.session.document } := by
  induction haims generalizing targets u with
  | nil => exact ⟨u, rfl, hu, rfl, rfl⟩
  | @cons item target items pending haim _ ih =>
    rw [List.reverse_cons, List.append_assoc] at horder
    rw [List.map_cons, List.nodup_cons] at hroots
    have hhere := (List.pairwise_cons.1 (List.pairwise_append.1 horder).2.1).1
    have hwait := hwaits target (List.mem_cons_self ..)
    obtain ⟨u₁, hstep, hu₁, hdone₁, hsession₁, hstays⟩ :=
      step_progressed hdoc₀ layout hu haim hhere hwait.1 hwait.2
    have hwaits₁ : ∀ t ∈ pending, u₁.session.document.IsLoose t.root ∧
        u₁.session.document.text? t.root = none := fun t ht => by
      obtain ⟨hl, ht'⟩ := hwaits t (List.mem_cons_of_mem _ ht)
      exact hstays _ hl ht' fun heq => hroots.1 (heq ▸ List.mem_map_of_mem ht)
    obtain ⟨u₂, hrun, hu₂, hdone₂, hsession₂⟩ := ih horder hroots.2 hu₁ hwaits₁
    refine ⟨u₂, ?_, ?_, ?_, ?_⟩
    · simp only [Session.Updating.run, hstep, bind, Except.bind, hrun]
    · rw [List.reverse_cons, List.append_assoc]
      exact hu₂
    · rw [hdone₂, hdone₁, List.zipWith_cons_cons, List.reverse_cons, List.append_assoc]
      rfl
    · rw [hsession₂, hsession₁]

/-- An update puts in all items: what stands for every place of the document then is described by
`Rendering`. -/
theorem update_rendering {s : Session} (hunfinished : .update ∉ s.finished)
    (hdoc : s.document.WellFormed) (layout : Layout s.document blocks)
    (hrank : s.document.Ranked rank)
    {targets : List Target} (haims : List.Forall₂ (Aims s.document blocks rank) s.items targets)
    (horder : targets.Pairwise Target.Precedes) (hroots : (targets.map Target.root).Nodup)
    (hwaits : ∀ t ∈ targets, s.document.IsLoose t.root ∧ s.document.text? t.root = none) :
    ∃ doc' replaced shown, s.update = .ok ({ s with
        document := doc'
        items := List.zipWith (fun (item : Item) (t : Target) => item.inserted t.root) s.items targets }.finish
          .update .rendered) ∧
      Rendering s.document blocks rank (Target.insertions targets) (Target.swap targets) doc'
        replaced shown := by
  have haims' : List.Forall₂ (Aims s.document blocks rank) s.items.reverse targets.reverse :=
    List.forall₂_reverse_iff.2 haims
  have hstart : Progressed s.document blocks rank [] { session := s } :=
    ⟨fun id => [id], Rendering.start hdoc hrank⟩
  obtain ⟨u, hrun, hu, hdone, hsession⟩ := run_progressed hdoc layout haims'
    (by simpa using horder) (by simpa using hroots) hstart (by simpa using hwaits)
  rw [List.reverse_reverse, List.append_nil] at hu
  obtain ⟨shown, R⟩ := hu.rendering
  have hlen := haims.length_eq
  refine ⟨u.session.document, u.replaced, shown, ?_, R⟩
  rw [Session.update, if_neg hunfinished, hrun]
  simp only [bind, Except.bind, pure, Except.pure]
  rw [hsession, hdone, List.append_nil, List.reverse_zipWith (by simp [hlen]), List.reverse_reverse,
    List.reverse_reverse]

end

/-! ### Items that are not typeset -/

/-- An update passes over items that are not typeset. -/
theorem Session.Updating.run_unset {u : Updating} {items : List Item}
    (h : ∀ item ∈ items, item.stage.rank < Stage.typeset.rank) :
    u.run items = .ok { u with done := items.reverse ++ u.done } := by
  induction items generalizing u with
  | nil => rfl
  | cons item rest ih =>
    obtain ⟨hitem, hrest⟩ := List.forall_mem_cons.1 h
    have hstep : u.step item = .ok { u with done := item :: u.done } := by
      rw [step, if_pos hitem]
    rw [run, hstep]
    simp only [bind, Except.bind, ih hrest, List.reverse_cons, List.append_assoc,
      List.singleton_append]

/-- So it leaves a session without typeset items as it is. -/
theorem Session.update_unset {s : Session}
    (h : ∀ item ∈ s.items, item.stage.rank < Stage.typeset.rank)
    (hunfinished : .update ∉ s.finished) : s.update = .ok (s.finish .update .rendered) := by
  rw [update, if_neg hunfinished, Updating.run_unset fun item hitem =>
    h item (List.mem_reverse.1 hitem)]
  simp only [bind, Except.bind, List.reverse_reverse, List.append_nil]
  rfl

end Formulary
