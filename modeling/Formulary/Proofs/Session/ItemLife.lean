import Mathlib.Logic.Relation
import Formulary.Proofs.Session.Filters
import Formulary.Proofs.Session.ItemHistory
import Formulary.Proofs.Update.Sites

/-! # The life of an item

An item can be read, typeset, put into its document and taken back, in any order and more than
once, as long as it has what a call needs (`Item.Call.IsDue`).  Where it is (`Item.Position`) is
told by its stage and its two locations: at its source as it was discovered, in the site of the
source, with the source put back into that site, or nowhere (`Item.IsAt`).

A call keeps what an item is (`Item.IsKept`) and leads from position to position
(`Item.Lives.exists_run`).  What no call changes about a position then holds after any number of
them (`Item.Lives.run`): an item keeps its site until it is taken out without its source. -/

namespace Formulary

open Formulary.Tree Document

/-- The places of the tree `id` of `doc` are new since `doc₀`. -/
def Document.IsNewIn (doc₀ doc : Document) (id : NodeId) : Prop :=
  ∃ t, doc.find? id = some t ∧ ∀ s ∈ t.subtrees, doc₀.fresh ≤ s.label

theorem Document.IsNewIn.apart {doc₀ doc : Document} {id p : NodeId} (h : doc₀.IsNewIn doc id)
    (hdoc₀ : doc₀.WellFormed) (hp : p ∈ doc₀.ids) : doc.Apart p id := by
  intro n hn
  obtain ⟨t, ht, hnew⟩ := h
  obtain rfl := Option.some.inj (ht.symm.trans hn)
  rw [Tree.find?, List.find?_eq_none]
  intro s hs hl
  exact hdoc₀.fresh_not_mem (hnew s hs) (of_decide_eq_true hl ▸ hp)

theorem Document.IsNewIn.mem_ids {doc₀ doc : Document} {id : NodeId} (h : doc₀.IsNewIn doc id) :
    id ∈ doc.ids := by
  obtain ⟨t, ht, -⟩ := h
  exact find?_isSome_iff.1 (by rw [ht]; rfl)

theorem Document.IsNewIn.congr {doc₀ doc doc' : Document} {id : NodeId} (h : doc₀.IsNewIn doc id)
    (hfind : doc'.find? id = doc.find? id) : doc₀.IsNewIn doc' id :=
  let ⟨t, ht, hnew⟩ := h
  ⟨t, hfind.trans ht, hnew⟩

namespace Item

/-! ### Calls of an item -/

/-- A call of an item. -/
inductive Call where
  | compile
  | typeset
  | update
  | setStage (stage : Stage) (restore : Bool)
deriving DecidableEq, Repr

namespace Call

/-- Typesetting needs a formula, and an update a typeset form. -/
def IsDue (call : Call) (item : Item) : Prop :=
  match call with
  | typeset => Stage.compiled.rank ≤ item.stage.rank
  | update => Stage.typeset.rank ≤ item.stage.rank
  | compile | setStage _ _ => True

/-- The document and the item after a call.  An error of TeX leaves the item to be read. -/
def run (call : Call) (doc : Document) (item : Item) : Except Fault (Document × Item) :=
  match call with
  | compile =>
    match item.compile doc with
    | (item, none) => .ok (doc, item)
    | (item, some (.tex _)) => .ok (doc, item)
    | (_, some (.fault fault)) => .error fault
  | typeset => item.typeset doc
  | update => (item.update doc).map fun (doc, item, _) => (doc, item)
  | setStage stage restore => item.setStage doc stage restore

end Call

/-- A call that is due leads from the one state of a document and an item to the other. -/
def Leads (s s' : Document × Item) : Prop :=
  ∃ call : Call, call.IsDue s.2 ∧ call.run s.1 s.2 = .ok s'

/-- The source of an item can be read, either set apart or not. -/
def IsReadable (doc : Document) (item : Item) : Prop :=
  ∃ display, (item.source.compile doc display item.math).2.isOk = true

/-! ### What stays -/

/-- What an item is in its document, after it was `item₀` in the document `doc₀`. -/
structure IsKept (doc₀ : Document) (item₀ : Item) (doc : Document) (item : Item) : Prop where
  wellFormed : doc.WellFormed
  fresh : doc₀.fresh ≤ doc.fresh
  math : item.math = item₀.math
  source : item.source = item₀.source
  opener : item.start.delimiter = item₀.start.delimiter
  closer : item.stop.delimiter = item₀.stop.delimiter
  reads : item.source.readsStrings = item.spelling?.isSome
  element : ∀ m, item₀.math = .node m → m ∈ doc₀.ids ∧ doc.find? m = doc₀.find? m
  root : item.root.isSome = true ↔ Stage.compiled.rank ≤ item.stage.rank
  content : item.content.isSome = true ↔ Stage.typeset.rank ≤ item.stage.rank
  new : ∀ c, item.content = some c → doc₀.IsNewIn doc c
  readable : Stage.compiled.rank ≤ item.stage.rank → item₀.IsReadable doc₀

section

variable {doc₀ doc doc' : Document} {item₀ item item' : Item}

theorem rank_min (a b : Stage) : (a.min b).rank = min a.rank b.rank := by
  rw [Stage.min]
  split <;> omega

theorem compiled_le_typeset : Stage.compiled.rank ≤ Stage.typeset.rank := by decide

theorem typeset_le_inserted : Stage.typeset.rank ≤ Stage.inserted.rank := by decide

theorem compiled_le_inserted : Stage.compiled.rank ≤ Stage.inserted.rank := by decide

theorem min_inserted (a : Stage) : a.min .inserted = a := by
  cases a <;> rfl

theorem content_of_forget {stage : Stage} {c : NodeId} (h : (item.forget stage).content = some c) :
    item.content = some c := by
  simp only [forget] at h
  split at h
  · cases h
  · exact h

theorem spelling?_congr (hmath : item'.math = item.math) (hstart : item'.start.delimiter =
    item.start.delimiter) (hstop : item'.stop.delimiter = item.stop.delimiter) :
    item'.spelling? = item.spelling? := by
  rw [spelling?, spelling?, hmath, hstart, hstop]

theorem Stands.isKept (h : item₀.Stands doc₀) (hdoc₀ : doc₀.WellFormed) (hnew : item₀.IsNew) :
    IsKept doc₀ item₀ doc₀ item₀ where
  wellFormed := hdoc₀
  fresh := Nat.le_refl _
  math := rfl
  source := rfl
  opener := rfl
  closer := rfl
  reads := by
    cases h with
    | element reads math => rw [reads, spelling?, math]; rfl
    | strings reads math => rw [reads, spelling?, math]; rfl
  element := fun m hm => by
    cases h with
    | element _ math _ _ host =>
      obtain rfl := Subject.node.inj (math.symm.trans hm)
      exact ⟨(mem_ids_of_mem_kids host).1, rfl⟩
    | strings _ math =>
      rw [math] at hm
      cases hm
  root := by
    rw [hnew.root, hnew.stage]
    decide
  content := by
    rw [hnew.content, hnew.stage]
    decide
  new := fun c hc => by
    rw [hnew.content] at hc
    cases hc
  readable := fun hrank => by
    rw [hnew.stage] at hrank
    exact absurd hrank (by decide)

namespace IsKept

theorem of_eq (h : IsKept doc₀ item₀ doc item) (hmath : item'.math = item.math)
    (hsource : item'.source = item.source)
    (hopener : item'.start.delimiter = item.start.delimiter)
    (hcloser : item'.stop.delimiter = item.stop.delimiter)
    (hroot : item'.root.isSome = true ↔ Stage.compiled.rank ≤ item'.stage.rank)
    (hcontent : item'.content.isSome = true ↔ Stage.typeset.rank ≤ item'.stage.rank)
    (hnew : ∀ c, item'.content = some c → doc₀.IsNewIn doc c)
    (hreadable : Stage.compiled.rank ≤ item'.stage.rank → item₀.IsReadable doc₀) :
    IsKept doc₀ item₀ doc item' where
  wellFormed := h.wellFormed
  fresh := h.fresh
  math := hmath.trans h.math
  source := hsource.trans h.source
  opener := hopener.trans h.opener
  closer := hcloser.trans h.closer
  reads := by rw [hsource, h.reads, spelling?_congr hmath hopener hcloser]
  element := h.element
  root := hroot
  content := hcontent
  new := hnew
  readable := hreadable

theorem grown (h : IsKept doc₀ item₀ doc item) (hext : doc.Extends doc') :
    IsKept doc₀ item₀ doc' item :=
  { h with
    wellFormed := hext.wellFormed
    fresh := Nat.le_trans h.fresh hext.fresh
    element := fun m hm => by
      obtain ⟨hmem, hfind⟩ := h.element m hm
      have hdoc : m ∈ doc.ids := find?_isSome_iff.1 (hfind ▸ find?_isSome_iff.2 hmem)
      exact ⟨hmem, (hext.find? hdoc).trans hfind⟩
    new := fun c hc => (h.new c hc).congr (hext.find? (h.new c hc).mem_ids) }

theorem apart (h : IsKept doc₀ item₀ doc item) {p m : NodeId} (hm : item₀.math = .node m)
    (hp : doc₀.Apart p m) : m ∈ doc.ids ∧ doc.Apart p m := by
  obtain ⟨hmem, hfind⟩ := h.element m hm
  exact ⟨find?_isSome_iff.1 (hfind ▸ find?_isSome_iff.2 hmem), fun n hn => hp n (hfind ▸ hn)⟩

theorem reshaped (h : IsKept doc₀ item₀ doc item) (hdoc₀ : doc₀.WellFormed) {p : NodeId}
    {children : List NodeId} (hres : doc.Reshaped doc' p children) (hp : p ∈ doc₀.ids)
    (hapart : ∀ m, item₀.math = .node m → doc₀.Apart p m) : IsKept doc₀ item₀ doc' item :=
  { h with
    wellFormed := hres.wellFormed
    fresh := Nat.le_trans h.fresh hres.fresh
    element := fun m hm => by
      obtain ⟨hdoc, hapart'⟩ := h.apart hm (hapart m hm)
      exact ⟨(h.element m hm).1, (hres.find? h.wellFormed hdoc hapart').trans (h.element m hm).2⟩
    new := fun c hc => (h.new c hc).congr <|
      hres.find? h.wellFormed (h.new c hc).mem_ids ((h.new c hc).apart hdoc₀ hp) }

/-- An item is read as it was when it was discovered. -/
theorem compile_eq (h : IsKept doc₀ item₀ doc item) (display : Bool) :
    item.source.compile doc display item.math = item₀.source.compile doc₀ display item₀.math := by
  have hdata : item₀.math.data doc = item₀.math.data doc₀ := by
    cases hmath : item₀.math with
    | text s => rfl
    | node m =>
      obtain ⟨-, hfind⟩ := h.element m hmath
      rw [Subject.data, Subject.data, Document.get, Document.get, hfind]
  rw [h.math, h.source, Source.compile, Source.compile, hdata]

theorem compile_yields (h : IsKept doc₀ item₀ doc item) (hsource : item₀.source.IsOrderly)
    (display : Bool) : Yields (fun _ => True) (item.source.compile doc display item.math).2 := by
  have horderly : item.source.IsOrderly := h.source ▸ hsource
  cases hmath : item.math with
  | text s =>
    have hreads : item.source.readsStrings = true := by
      rw [h.reads, spelling?, hmath]
      rfl
    refine horderly.compile_yields rfl ?_ display
    rw [Source.Takes, if_pos hreads]
    rfl
  | node m =>
    have hreads : ¬item.source.readsStrings = true := by
      rw [h.reads, spelling?, hmath]
      simp
    obtain ⟨hmem, hfind⟩ := h.element m (h.math ▸ hmath)
    obtain ⟨n, hn⟩ := exists_of_mem_ids hmem
    have hdata : Subject.data doc (.node m) = .ok (.place n) := by
      rw [Subject.data, WellFormed.get_eq (hfind.trans hn)]
      rfl
    refine horderly.compile_yields hdata ?_ display
    rw [Source.Takes, if_neg hreads]
    exact ⟨n, rfl⟩

/-- What is read could be read as soon as it was discovered. -/
theorem isReadable (h : IsKept doc₀ item₀ doc item) {display : Bool}
    (hok : (item.source.compile doc display item.math).2.isOk = true) : item₀.IsReadable doc₀ :=
  ⟨display, by rw [← h.compile_eq, hok]⟩

theorem inserted (h : IsKept doc₀ item₀ doc item)
    (hdue : Stage.typeset.rank ≤ item.stage.rank) (c : NodeId) (hc : item.content = some c) :
    IsKept doc₀ item₀ doc (item.inserted c) ∧ (item.inserted c).Names c := by
  have hread : Stage.compiled.rank ≤ item.stage.rank := Nat.le_trans compiled_le_typeset hdue
  have hkept : IsKept doc₀ item₀ doc (item.inserted c) :=
    h.of_eq rfl rfl rfl rfl (iff_of_true (h.root.2 hread) compiled_le_inserted)
      (iff_of_true (h.content.2 hdue) typeset_le_inserted) h.new fun _ => h.readable hread
  exact ⟨hkept, rfl, hc, rfl, rfl, hkept.reads⟩

theorem forget (h : IsKept doc₀ item₀ doc item) (stage : Stage) :
    IsKept doc₀ item₀ doc (item.forget stage) := by
  have hmin := rank_min item.stage stage
  refine h.of_eq rfl rfl rfl rfl ?_ ?_ (fun c hc => h.new c (content_of_forget hc)) fun hrank =>
    h.readable ?_
  · have hroot := h.root
    simp only [Item.forget, hmin]
    split
    · simp only [Option.isSome_none, Bool.false_eq_true, false_iff]
      omega
    · rw [hroot]
      omega
  · have hcontent := h.content
    simp only [Item.forget, hmin]
    split
    · simp only [Option.isSome_none, Bool.false_eq_true, false_iff]
      omega
    · rw [hcontent]
      omega
  · simp only [Item.forget, hmin] at hrank
    omega

end IsKept

/-! ### Where an item is -/

/-- Where an item is: at its source as it was discovered, in a site, at its source that is back in
the site, or nowhere. -/
inductive Position where
  | found
  | shown (site : Site)
  | restored (site : Site)
  | gone
deriving DecidableEq, Repr

/-- Where a call takes an item. -/
def Position.Leads (call : Call) (pos pos' : Position) : Prop :=
  match call, pos with
  | .update, .found => ∃ site, pos' = .shown site
  | .update, .restored site => pos' = .shown site
  | .setStage stage restore, .shown site =>
    pos' = if stage = .inserted then .shown site else if restore then .restored site else .gone
  | _, _ => pos' = pos

/-- The item is at the position in its document, after it was discovered as `item₀` in the document
`doc₀`. -/
inductive IsAt (doc₀ : Document) (item₀ : Item) (doc : Document) (item : Item) : Position → Prop
  | found (stage : item.stage ≠ .inserted) (loose : ∀ c, item.content = some c → doc.IsLoose c)
      (start : item.start = item₀.start) (stop : item.stop = item₀.stop)
      (grown : doc₀.Extends doc) : IsAt doc₀ item₀ doc item .found
  | shown {site : Site} {c : NodeId} (names : item.Names c) (holds : site.Holds doc c)
      (stood : item₀.StoodAt doc₀ doc site) (loose : ∀ m, item₀.math = .node m → doc.IsLoose m) :
      IsAt doc₀ item₀ doc item (.shown site)
  | restored {site : Site} {x : NodeId} (stage : item.stage ≠ .inserted)
      (loose : ∀ c, item.content = some c → doc.IsLoose c)
      (start : item.start = ⟨some x, 0, item.start.delimiter⟩)
      (stop : item.stop = ⟨some x, item.reach, item.stop.delimiter⟩) (holds : site.Holds doc x)
      (source : item.HasSource doc x) (stood : item₀.StoodAt doc₀ doc site)
      (readable : item₀.IsReadable doc₀) : IsAt doc₀ item₀ doc item (.restored site)
  | gone (stage : item.stage ≠ .inserted) (start : item.start.node = none) :
      IsAt doc₀ item₀ doc item .gone

/-- The item `item₀` of the document `doc₀` has become `item`, which is at the position. -/
structure Lives (doc₀ : Document) (item₀ : Item) (doc : Document) (item : Item) (pos : Position) :
    Prop extends IsKept doc₀ item₀ doc item where
  position : IsAt doc₀ item₀ doc item pos

theorem IsAt.exists_shown {pos : Position} (h : IsAt doc₀ item₀ doc item pos)
    (hstage : item.stage = .inserted) :
    ∃ site c, pos = .shown site ∧ item.Names c ∧ site.Holds doc c ∧ item₀.StoodAt doc₀ doc site ∧
      ∀ m, item₀.math = .node m → doc.IsLoose m := by
  cases h with
  | shown names holds stood loose => exact ⟨_, _, rfl, names, holds, stood, loose⟩
  | found stage => exact absurd hstage stage
  | restored stage => exact absurd hstage stage
  | gone stage => exact absurd hstage stage

/-- The document has more beside it, and the item is where it was, out of the document. -/
structure Prepared (doc : Document) (item : Item) (doc' : Document) (item' : Item) : Prop where
  grown : doc.Extends doc'
  math : item'.math = item.math
  start : item'.start = item.start
  stop : item'.stop = item.stop
  stage : item'.stage ≠ .inserted
  loose : ∀ c, item'.content = some c → item.content = some c ∨ doc'.IsLoose c

variable {pos : Position}

theorem HasSource.extends {x : NodeId} (h : item.HasSource doc x) (hx : x ∈ doc.ids)
    (hp : Prepared doc item doc' item') : item'.HasSource doc' x := by
  have hspelling : item'.spelling? = item.spelling? :=
    spelling?_congr hp.math (by rw [hp.start]) (by rw [hp.stop])
  rw [HasSource, hp.math, hspelling, hp.grown.text? hx]
  exact h

theorem IsAt.prepared (h : IsAt doc₀ item₀ doc item pos) (hstage : item.stage ≠ .inserted)
    (hp : Prepared doc item doc' item') : IsAt doc₀ item₀ doc' item' pos := by
  have hloose (hc : ∀ c, item.content = some c → doc.IsLoose c) :
      ∀ c, item'.content = some c → doc'.IsLoose c := fun c hc' =>
    (hp.loose c hc').elim (fun hsame => hp.grown.isLoose (hc c hsame)) id
  cases h with
  | found _ loose start stop grown =>
    exact .found hp.stage (hloose loose) (hp.start.trans start) (hp.stop.trans stop)
      (grown.trans hp.grown)
  | shown names => exact absurd names.stage hstage
  | @restored site x _ loose start stop holds source stood readable =>
    have hx := holds.mem
    have hreach : item'.reach = item.reach := by
      rw [reach, reach, spelling?_congr hp.math (by rw [hp.start]) (by rw [hp.stop])]
    refine .restored hp.stage (hloose loose) (by rw [hp.start]; exact start) ?_ ?_
      (source.extends (mem_ids_of_mem_kids hx).1 hp) (stood.mono fun id s hs => ?_) readable
    · rw [hreach, hp.stop]
      exact stop
    · exact (hp.grown.kids (mem_ids_of_mem_kids hx).2).trans holds
    · rw [hp.grown.text? (mem_ids_of_text? hs), hs]
  | gone _ start => exact .gone hp.stage (by rw [hp.start]; exact start)

/-! ### Taking an item back -/

theorem ne_inserted_of_lt {a b : Stage} (h : a.rank < b.rank) : a ≠ .inserted := by
  rintro rfl
  revert h
  cases b <;> decide

theorem lt_inserted_of_ne {a : Stage} (h : a ≠ .inserted) : a.rank < Stage.inserted.rank := by
  cases a with
  | inserted => exact absurd rfl h
  | _ => decide

theorem setStage_inserted (doc : Document) (item : Item) (restore : Bool) :
    item.setStage doc .inserted restore = .ok (doc, item) := by
  show Except.ok (doc, item.forget .inserted) = _
  rw [forget, min_inserted, if_neg (by decide), if_neg (by decide)]

theorem setStage_of_removed {stage : Stage} (hstage : stage ≠ .inserted) {restore : Bool}
    (h : item.removeFromDocument doc restore = .ok (doc', item')) :
    item.setStage doc stage restore = .ok (doc', item'.forget stage) := by
  rw [setStage, if_pos (lt_inserted_of_ne hstage), h]
  rfl

theorem setStage_of_ne (h : item.stage ≠ .inserted) (stage : Stage) (restore : Bool) :
    item.setStage doc stage restore = .ok (doc, item.forget stage) := by
  by_cases hstage : stage = .inserted
  · subst hstage
    rfl
  · exact setStage_of_removed hstage (by rw [removeFromDocument, if_neg h])

theorem forget_stage_ne {stage : Stage} (h : stage ≠ .inserted) (item : Item) :
    (item.forget stage).stage ≠ .inserted := by
  refine fun heq => absurd (congrArg Stage.rank heq) (Nat.ne_of_lt ?_)
  rw [forget, rank_min]
  exact Nat.lt_of_le_of_lt (Nat.min_le_right ..) (lt_inserted_of_ne h)

/-- The item with its ends nowhere. -/
def unplaced (item : Item) : Item :=
  { item with
    start := ⟨none, 0, item.start.delimiter⟩
    stop := ⟨none, 0, item.stop.delimiter⟩ }

/-- The typeset form goes without the source. -/
theorem Names.exists_taken {p root : NodeId} (h : item.Names root) (hdoc : doc.WellFormed)
    {before after : List NodeId} (hkids : doc.kids p = before ++ root :: after) :
    ∃ doc', item.removeFromDocument doc false = .ok (doc', item.unplaced) ∧
      doc.Reshaped doc' p (before ++ after) := by
  obtain ⟨doc', hremove, htrim⟩ := remove_trimmed hdoc hkids
  have hstart : item.start.node = some root := by rw [h.start]
  refine ⟨doc', ?_, htrim.toReshaped⟩
  simp only [removeFromDocument, if_pos h.stage, hstart, Bool.false_eq_true, if_false, hremove,
    bind, Except.bind, pure, Except.pure, unplaced]

/-! ### One call -/

namespace Lives

/-- Reading an item succeeds, or fails with an error of TeX.  If the source is steady, it then fails
whether the item is set apart or not. -/
theorem exists_compile (h : Lives doc₀ item₀ doc item pos) (hsource : item₀.source.IsOrderly) :
    ∃ item' failure, item.compile doc = (item', failure) ∧ Lives doc₀ item₀ doc item' pos ∧
      (failure = none ∧ Stage.compiled.rank ≤ item'.stage.rank ∨
        (∃ e, failure = some (.tex e)) ∧ (item₀.source.IsSteady → ¬item₀.IsReadable doc₀)) := by
  by_cases hrank : item.stage.rank < Stage.compiled.rank
  · have hstage := ne_inserted_of_lt hrank
    have hcontent : ¬item.content.isSome = true := fun hsome =>
      absurd (h.content.1 hsome) (Nat.not_le.2 (Nat.lt_trans hrank (by decide)))
    have hyields := h.compile_yields hsource item.display
    rw [compile, if_pos hrank]
    rcases hresult : item.source.compile doc item.display item.math with ⟨display, result⟩
    rw [hresult] at hyields
    cases result with
    | ok root =>
      have hreadable : item₀.IsReadable doc₀ := h.isReadable (by rw [hresult]; rfl)
      refine ⟨_, none, rfl, ⟨h.of_eq rfl rfl rfl rfl (iff_of_true rfl (Nat.le_refl _))
        (iff_of_false hcontent (Nat.not_succ_le_self 1)) h.new fun _ => hreadable,
        h.position.prepared hstage ?_⟩, .inl ⟨rfl, Nat.le_refl _⟩⟩
      exact ⟨.refl h.wellFormed, rfl, rfl, rfl, by simp, fun c hc => .inl hc⟩
    | error failure =>
      obtain ⟨e, rfl⟩ : ∃ e, failure = .tex e := by
        cases failure with
        | tex e => exact ⟨e, rfl⟩
        | fault => cases hyields
      refine ⟨_, _, rfl, ⟨h.of_eq rfl rfl rfl rfl h.root h.content h.new h.readable,
        h.position.prepared hstage ?_⟩, .inr ⟨⟨e, rfl⟩, fun hsteady hreadable => ?_⟩⟩
      · exact ⟨.refl h.wellFormed, rfl, rfl, rfl, hstage, fun c hc => .inl hc⟩
      · obtain ⟨display', hok⟩ := hreadable
        rw [hsteady _ display' item.display, ← h.compile_eq, hresult] at hok
        cases hok
  · exact ⟨item, none, by rw [compile, if_neg hrank], h, .inl ⟨rfl, Nat.le_of_not_lt hrank⟩⟩

theorem exists_typeset (h : Lives doc₀ item₀ doc item pos)
    (hdue : Stage.compiled.rank ≤ item.stage.rank) :
    ∃ doc' item', item.typeset doc = .ok (doc', item') ∧ Lives doc₀ item₀ doc' item' pos ∧
      Stage.typeset.rank ≤ item'.stage.rank := by
  by_cases hrank : item.stage.rank < Stage.typeset.rank
  · obtain ⟨root, hroot⟩ := Option.isSome_iff_exists.1 (h.root.2 hdue)
    obtain ⟨hgrown, t, hlabel, -, hloose, hfind, hnew⟩ :=
      create_extends h.wellFormed (typesetForm item.source root)
    refine ⟨_, { item with content := some t.label, stage := .typeset }, ?_,
      ⟨(h.grown hgrown).of_eq rfl rfl rfl rfl (iff_of_true (h.root.2 hdue) compiled_le_typeset)
        (iff_of_true rfl (Nat.le_refl _)) (fun c hc => ?_) fun _ => h.readable hdue,
        h.position.prepared (ne_inserted_of_lt hrank) ⟨hgrown, rfl, rfl, rfl, by simp,
          fun c hc => .inr (Option.some.inj hc ▸ hloose)⟩⟩, Nat.le_refl _⟩
    · rw [typeset, if_pos hrank, hroot, ← hlabel]
    · obtain rfl := Option.some.inj hc
      exact ⟨t, hfind, fun s hs => Nat.le_trans h.fresh (hnew s hs)⟩
  · exact ⟨doc, item, by rw [typeset, if_neg hrank], h, Nat.le_of_not_lt hrank⟩

theorem exists_update (h : Lives doc₀ item₀ doc item pos) (hdoc₀ : doc₀.WellFormed)
    (hstands : item₀.Stands doc₀) (hdue : Stage.typeset.rank ≤ item.stage.rank) :
    ∃ doc' item' replaced pos', item.update doc = .ok (doc', item', replaced) ∧
      Lives doc₀ item₀ doc' item' pos' ∧ pos.Leads .update pos' := by
  obtain ⟨hkept, hpos⟩ := h
  obtain ⟨c, hc⟩ := Option.isSome_iff_exists.1 (hkept.content.2 hdue)
  have hapart : ∀ p ∈ doc₀.ids, doc.Apart p c := fun p hp => (hkept.new c hc).apart hdoc₀ hp
  cases hpos with
  | found stage loose start stop grown =>
    obtain ⟨first, last, doc', replaced, site, hfirst, hlast, hplace, hres, hstood, hloose⟩ :=
      hstands.exists_place grown hkept.math hkept.source start stop hc (loose c hc) hapart
    obtain ⟨hkept', hnames⟩ := (hkept.reshaped hdoc₀ hres hstood.host_mem
      fun m hm => hstood.apart hdoc₀ hm).inserted hdue c hc
    exact ⟨doc', item.inserted c, replaced, .shown site, update_eq stage hfirst hlast hplace,
      ⟨hkept', .shown hnames hres.here hstood hloose⟩, site, rfl⟩
  | shown names holds stood loose =>
    exact ⟨doc, item, [], _, by rw [update, if_pos names.stage],
      ⟨hkept, .shown names holds stood loose⟩, rfl⟩
  | @restored site x stage loose start stop holds source stood readable =>
    obtain ⟨doc', hplace, hres⟩ := exists_place_source hkept.wellFormed holds hkept.reads
      (by rw [start]) (by rw [stop]) source hc (loose c hc) (hapart _ stood.host_mem)
    obtain ⟨hkept', hnames⟩ := (hkept.reshaped hdoc₀ hres stood.host_mem
      fun m hm => stood.apart hdoc₀ hm).inserted hdue c hc
    refine ⟨doc', item.inserted c, [], .shown site,
      update_eq stage (by rw [start]) (by rw [stop]) hplace, ⟨hkept', .shown hnames hres.here
        (stood.mono fun id s hs => hres.text?_eq_some hs) fun m hm => ?_⟩, rfl⟩
    rw [HasSource, hkept.math, hm] at source
    obtain rfl : x = m := source
    refine hres.isLoose_of_exchanged hkept.wellFormed holds fun heq => ?_
    exact (hkept.wellFormed.isLoose_iff.1 (loose c hc)).2.2 site.host (heq ▸ holds.mem)
  | gone stage start =>
    exact ⟨doc, item, [], .gone, by rw [update, if_neg stage, start],
      ⟨hkept, .gone stage start⟩, rfl⟩

theorem forget (h : Lives doc₀ item₀ doc item pos) (hstage : item.stage ≠ .inserted)
    (stage : Stage) : Lives doc₀ item₀ doc (item.forget stage) pos := by
  refine ⟨h.toIsKept.forget stage, h.position.prepared hstage
    ⟨.refl h.wellFormed, rfl, rfl, rfl, ?_, fun c hc => .inl (content_of_forget hc)⟩⟩
  by_cases heq : stage = .inserted
  · subst heq
    rwa [Item.forget, min_inserted]
  · exact forget_stage_ne heq item

theorem exists_restored {site : Site} (h : Lives doc₀ item₀ doc item (.shown site))
    (hdoc₀ : doc₀.WellFormed) {stage : Stage} (hne : stage ≠ .inserted) :
    ∃ doc' item', item.setStage doc stage true = .ok (doc', item') ∧
      Lives doc₀ item₀ doc' item' (.restored site) ∧ item'.stage = item.stage.min stage := by
  obtain ⟨hkept, hpos⟩ := h
  cases hpos with
  | shown names holds stood loose =>
    obtain ⟨doc', x, hremove, hres, hloose, hsource, -⟩ :=
      names.exists_removed hkept.wellFormed holds fun m hm => by
        rw [hkept.math] at hm
        exact ⟨loose m hm, (hkept.apart hm (stood.apart hdoc₀ hm)).2⟩
    have hkept' := hkept.reshaped hdoc₀ hres stood.host_mem fun m hm => stood.apart hdoc₀ hm
    have hback : IsKept doc₀ item₀ doc' (item.backAt x) :=
      hkept'.of_eq rfl rfl rfl rfl hkept'.root hkept'.content hkept'.new hkept'.readable
    refine ⟨doc', (item.backAt x).forget stage, setStage_of_removed hne hremove,
      ⟨hback.forget stage, .restored (forget_stage_ne hne _) (fun c hc => ?_) rfl rfl hres.here
        hsource (stood.mono fun id s hs => hres.text?_eq_some hs)
        (hkept.readable (names.stage ▸ compiled_le_inserted))⟩, rfl⟩
    obtain rfl := Option.some.inj (names.content.symm.trans (content_of_forget hc))
    exact hloose

theorem exists_removed {site : Site} (h : Lives doc₀ item₀ doc item (.shown site))
    (hdoc₀ : doc₀.WellFormed) {stage : Stage} (hne : stage ≠ .inserted) :
    ∃ doc' item', item.setStage doc stage false = .ok (doc', item') ∧
      Lives doc₀ item₀ doc' item' .gone ∧ item'.stage = item.stage.min stage := by
  obtain ⟨hkept, hpos⟩ := h
  cases hpos with
  | shown names holds stood =>
    obtain ⟨doc', hremove, hres⟩ := names.exists_taken hkept.wellFormed holds
    have hkept' := hkept.reshaped hdoc₀ hres stood.host_mem fun m hm => stood.apart hdoc₀ hm
    have hgone : IsKept doc₀ item₀ doc' item.unplaced :=
      hkept'.of_eq rfl rfl rfl rfl hkept'.root hkept'.content hkept'.new hkept'.readable
    exact ⟨doc', item.unplaced.forget stage, setStage_of_removed hne hremove,
      ⟨hgone.forget stage, .gone (forget_stage_ne hne _) rfl⟩, rfl⟩

/-- An item goes back to a stage, and out of the document if it was in it. -/
theorem exists_setStage (h : Lives doc₀ item₀ doc item pos) (hdoc₀ : doc₀.WellFormed)
    (stage : Stage) (restore : Bool) :
    ∃ doc' item' pos', item.setStage doc stage restore = .ok (doc', item') ∧
      Lives doc₀ item₀ doc' item' pos' ∧ pos.Leads (.setStage stage restore) pos' ∧
      item'.stage = item.stage.min stage := by
  by_cases heq : stage = .inserted
  · subst heq
    refine ⟨doc, item, pos, setStage_inserted .., h, ?_, (min_inserted _).symm⟩
    cases pos <;> rfl
  by_cases hne : item.stage ≠ .inserted
  · refine ⟨doc, item.forget stage, pos, setStage_of_ne hne .., h.forget hne stage, ?_, rfl⟩
    cases h.position with
    | shown names => exact absurd names.stage hne
    | _ => rfl
  · obtain ⟨site, c, rfl, -⟩ := h.position.exists_shown (not_not.1 hne)
    cases restore with
    | true =>
      obtain ⟨doc', item', hset, hlives, hstage⟩ := h.exists_restored hdoc₀ heq
      exact ⟨doc', item', _, hset, hlives, by rw [Position.Leads, if_neg heq]; rfl, hstage⟩
    | false =>
      obtain ⟨doc', item', hset, hlives, hstage⟩ := h.exists_removed hdoc₀ heq
      exact ⟨doc', item', _, hset, hlives, by rw [Position.Leads, if_neg heq]; rfl, hstage⟩

/-- A call that is due succeeds. -/
theorem exists_run (h : Lives doc₀ item₀ doc item pos) (hdoc₀ : doc₀.WellFormed)
    (hstands : item₀.Stands doc₀) (hsource : item₀.source.IsOrderly) {call : Call}
    (hdue : call.IsDue item) :
    ∃ doc' item' pos', call.run doc item = .ok (doc', item') ∧
      Lives doc₀ item₀ doc' item' pos' ∧ pos.Leads call pos' := by
  cases call with
  | compile =>
    obtain ⟨item', failure, hcompile, hlives, hfailure⟩ := h.exists_compile hsource
    refine ⟨doc, item', pos, ?_, hlives, rfl⟩
    rcases hfailure with ⟨rfl, -⟩ | ⟨⟨e, rfl⟩, -⟩ <;> simp only [Call.run, hcompile]
  | typeset =>
    obtain ⟨doc', item', htypeset, hlives, -⟩ := h.exists_typeset hdue
    exact ⟨doc', item', pos, htypeset, hlives, rfl⟩
  | update =>
    obtain ⟨doc', item', replaced, pos', hupdate, hlives, hleads⟩ :=
      h.exists_update hdoc₀ hstands hdue
    exact ⟨doc', item', pos', by rw [Call.run, hupdate]; rfl, hlives, hleads⟩
  | setStage stage restore =>
    obtain ⟨doc', item', pos', hset, hlives, hleads, -⟩ := h.exists_setStage hdoc₀ stage restore
    exact ⟨doc', item', pos', hset, hlives, hleads⟩

end Lives

/-! ### Any number of calls -/

/-- The site in which an item is, or its source again. -/
def Position.site? : Position → Option Site
  | .shown site | .restored site => some site
  | .found | .gone => none

theorem Position.Leads.gone {call : Call} {pos' : Position} (h : Leads call .gone pos') :
    pos' = .gone := by
  cases call <;> exact h

/-- An item keeps its site until it is gone. -/
theorem Position.Leads.site? {call : Call} {pos' : Position} (h : pos.Leads call pos')
    {site : Site} (hsite : pos.site? = some site) : pos' = .gone ∨ pos'.site? = some site := by
  cases pos with
  | found => cases hsite
  | gone => cases hsite
  | shown _ =>
    cases call with
    | setStage stage restore =>
      rw [Leads] at h
      subst h
      split
      · exact .inr hsite
      · cases restore
        · exact .inl rfl
        · exact .inr hsite
    | _ =>
      obtain rfl : pos' = _ := h
      exact .inr hsite
  | restored _ =>
    cases call <;>
    · obtain rfl : pos' = _ := h
      exact .inr hsite

theorem Position.Leads.stays {site : Site} (call : Call) (pos pos' : Position)
    (hpos : pos = .gone ∨ pos.site? = some site) (h : pos.Leads call pos') :
    pos' = .gone ∨ pos'.site? = some site := by
  rcases hpos with rfl | hsite
  · exact .inl h.gone
  · exact h.site? hsite

/-- An item is gone only when it is taken out of its document without its source. -/
theorem Position.Leads.eq_gone {call : Call} (h : pos.Leads call .gone) :
    pos = .gone ∨ ∃ stage, call = .setStage stage false := by
  cases pos with
  | gone => exact .inl rfl
  | found =>
    cases call with
    | update =>
      obtain ⟨site, hsite⟩ := h
      cases hsite
    | _ => cases h
  | restored _ => cases call <;> cases h
  | shown _ =>
    cases call with
    | setStage stage restore =>
      cases restore with
      | false => exact .inr ⟨stage, rfl⟩
      | true =>
        rw [Leads] at h
        split at h <;> cases h
    | _ => cases h

theorem Stretch.isResolved (S : item.Stretch doc) : item.isResolved = true := by
  rw [Item.isResolved, S.start, S.stop]
  cases S.skip <;> rfl

theorem Stands.isResolved (h : item.Stands doc) : item.isResolved = true := by
  cases h with
  | element _ _ start stop =>
    rw [Item.isResolved, start, stop]
    rfl
  | strings _ _ S => exact S.isResolved

/-- Reading, typesetting and an update, one after the other, put the item into the site.  Reading
fails only if the source is not steady, and with an error of TeX. -/
def IsPutInto (doc : Document) (item : Item) (site : Site) : Prop :=
  (∃ item₁ doc₂ item₂ doc₃ item₃ replaced c, item.compile doc = (item₁, none) ∧
    item₁.typeset doc = .ok (doc₂, item₂) ∧ item₂.update doc₂ = .ok (doc₃, item₃, replaced) ∧
    item₃.stage = .inserted ∧ item₃.content = some c ∧ site.Holds doc₃ c) ∨
  ¬item.source.IsSteady ∧ ∃ item₁ e, item.compile doc = (item₁, some (.tex e))

namespace Lives

theorem isResolved_iff (h : Lives doc₀ item₀ doc item pos) (hstands : item₀.Stands doc₀) :
    item.isResolved = true ↔ pos ≠ .gone := by
  obtain ⟨-, hpos⟩ := h
  cases hpos with
  | found _ _ start stop =>
    rw [Item.isResolved, start, stop]
    exact iff_of_true hstands.isResolved (by simp)
  | shown names =>
    rw [Item.isResolved, names.start, names.stop]
    exact iff_of_true rfl (by simp)
  | restored _ _ start stop =>
    rw [Item.isResolved, start, stop]
    exact iff_of_true rfl (by simp)
  | gone _ start =>
    rw [Item.isResolved, start]
    exact iff_of_false Bool.false_ne_true (by simp)

/-- What calls do not change about a position holds after any number of them. -/
theorem run {P : Position → Prop} (hstable : ∀ call pos pos', P pos → pos.Leads call pos' → P pos')
    (h : Lives doc₀ item₀ doc item pos) (hdoc₀ : doc₀.WellFormed) (hstands : item₀.Stands doc₀)
    (hsource : item₀.source.IsOrderly) (hpos : P pos)
    (hrun : Relation.ReflTransGen Leads (doc, item) (doc', item')) :
    ∃ pos', P pos' ∧ Lives doc₀ item₀ doc' item' pos' := by
  generalize hs' : (doc', item') = s' at hrun
  induction hrun generalizing doc' item' with
  | refl =>
    cases hs'
    exact ⟨pos, hpos, h⟩
  | @tail s₁ s₂ _ hlast ih =>
    obtain ⟨pos₁, hpos₁, h₁⟩ := @ih s₁.1 s₁.2 rfl
    obtain ⟨call, hdue, hcall⟩ := hlast
    obtain ⟨doc₂, item₂, pos₂, hrun, h₂, hleads⟩ := h₁.exists_run hdoc₀ hstands hsource hdue
    subst hs'
    cases hcall.symm.trans hrun
    exact ⟨pos₂, hstable call pos₁ pos₂ hpos₁ hleads, h₂⟩

theorem isPutInto (h : Lives doc₀ item₀ doc item pos) (hdoc₀ : doc₀.WellFormed)
    (hstands : item₀.Stands doc₀) (hsource : item₀.source.IsOrderly) {site : Site}
    (hsite : pos.site? = some site) : item.IsPutInto doc site := by
  have hreadable : item₀.IsReadable doc₀ := by
    cases h.position with
    | found => cases hsite
    | gone => cases hsite
    | shown names => exact h.readable (names.stage ▸ compiled_le_inserted)
    | restored _ _ _ _ _ _ _ readable => exact readable
  obtain ⟨item₁, failure, hcompile, h₁, hfailure⟩ := h.exists_compile hsource
  rcases hfailure with ⟨rfl, hread⟩ | ⟨⟨e, rfl⟩, hnot⟩
  case inr => exact .inr ⟨fun hsteady => hnot (h.source ▸ hsteady) hreadable, item₁, e, hcompile⟩
  obtain ⟨doc₂, item₂, htypeset, h₂, hset⟩ := h₁.exists_typeset hread
  obtain ⟨doc₃, item₃, replaced, pos', hupdate, h₃, hleads⟩ := h₂.exists_update hdoc₀ hstands hset
  have hpos' : pos' = .shown site := by
    cases pos with
    | found => cases hsite
    | gone => cases hsite
    | shown _ =>
      cases hsite
      exact hleads
    | restored _ =>
      cases hsite
      exact hleads
  subst hpos'
  cases h₃.position with
  | shown names holds =>
    exact .inl ⟨item₁, doc₂, item₂, doc₃, item₃, replaced, _, hcompile, htypeset, hupdate,
      names.stage, names.content, holds⟩

end Lives

/-- What holds of an item in a document, after it was discovered as `item₀` in the document
`doc₀`. -/
structure Life (doc₀ : Document) (item₀ : Item) (doc : Document) (item : Item) : Prop where
  /-- Calls succeed. -/
  runs : ∀ call : Call, call.IsDue item → ∃ s', call.run doc item = .ok s'
  root : item.root.isSome = true ↔ Stage.compiled.rank ≤ item.stage.rank
  content : item.content.isSome = true ↔ Stage.typeset.rank ≤ item.stage.rank
  /-- An item in its document is where its source was. -/
  inserted : item.stage = .inserted → ∃ c site, item.content = some c ∧
    item.start = ⟨some c, 0, item₀.start.delimiter⟩ ∧
    item.stop = ⟨some c, 0, item₀.stop.delimiter⟩ ∧
    site.Holds doc c ∧ item₀.StoodAt doc₀ doc site
  /-- Only to be taken out without its source takes the ends of an item away. -/
  resolved : item.isResolved = true → ∀ (call : Call) doc' item', call.IsDue item →
    call.run doc item = .ok (doc', item') →
    item'.isResolved = true ∨ ∃ stage, call = .setStage stage false
  /-- An item that goes back is at the earlier one of the two stages. -/
  back : ∀ stage restore doc' item', item.setStage doc stage restore = .ok (doc', item') →
    item'.stage = item.stage.min stage
  /-- An item whose source is restored has its ends, and comes back into the same site. -/
  restored : item.stage = .inserted → ∀ stage, stage ≠ .inserted → ∀ doc' item',
    item.setStage doc stage true = .ok (doc', item') → item'.isResolved = true ∧
    ∃ c site, item.content = some c ∧ site.Holds doc c ∧
      ∀ doc₁ item₁, Relation.ReflTransGen Leads (doc', item') (doc₁, item₁) →
        item₁.isResolved = true → item₁.IsPutInto doc₁ site
  /-- An item whose source is not restored is nowhere for good. -/
  removed : item.stage = .inserted → ∀ stage, stage ≠ .inserted → ∀ doc' item',
    item.setStage doc stage false = .ok (doc', item') →
    ∀ doc₁ item₁, Relation.ReflTransGen Leads (doc', item') (doc₁, item₁) →
      item₁.isResolved = false ∧ item₁.update doc₁ = .ok (doc₁, item₁, [])

theorem Lives.life (h : Lives doc₀ item₀ doc item pos) (hdoc₀ : doc₀.WellFormed)
    (hstands : item₀.Stands doc₀) (hsource : item₀.source.IsOrderly) :
    Life doc₀ item₀ doc item where
  runs := fun call hdue =>
    let ⟨doc', item', _, hcall, _⟩ := h.exists_run hdoc₀ hstands hsource hdue
    ⟨(doc', item'), hcall⟩
  root := h.root
  content := h.content
  inserted := fun hstage => by
    obtain ⟨site, c, -, names, holds, stood, -⟩ := h.position.exists_shown hstage
    refine ⟨c, site, names.content, ?_, ?_, holds, stood⟩
    · rw [← h.opener]
      exact names.start
    · rw [← h.closer]
      exact names.stop
  resolved := fun hresolved call doc' item' hdue hcall => by
    obtain ⟨doc₁, item₁, pos', hrun, h', hleads⟩ := h.exists_run hdoc₀ hstands hsource hdue
    cases hcall.symm.trans hrun
    by_cases hpos' : pos' = .gone
    · subst hpos'
      exact .inr (hleads.eq_gone.resolve_left ((h.isResolved_iff hstands).1 hresolved))
    · exact .inl ((h'.isResolved_iff hstands).2 hpos')
  back := fun stage restore doc' item' hset => by
    obtain ⟨doc₁, item₁, pos', hset', -, -, hstage⟩ := h.exists_setStage hdoc₀ stage restore
    cases hset.symm.trans hset'
    exact hstage
  restored := fun hstage stage hne doc' item' hset => by
    obtain ⟨site, c, rfl, names, holds, -⟩ := h.position.exists_shown hstage
    obtain ⟨doc₁, item₁, hset', h', -⟩ := h.exists_restored hdoc₀ hne
    cases hset.symm.trans hset'
    refine ⟨(h'.isResolved_iff hstands).2 (by simp), c, site, names.content, holds,
      fun doc₂ item₂ hrun hresolved => ?_⟩
    obtain ⟨pos₂, hpos₂, h₂⟩ := h'.run Position.Leads.stays hdoc₀ hstands hsource (.inr rfl) hrun
    exact h₂.isPutInto hdoc₀ hstands hsource
      (hpos₂.resolve_left ((h₂.isResolved_iff hstands).1 hresolved))
  removed := fun hstage stage hne doc' item' hset doc₁ item₁ hrun => by
    obtain ⟨site, c, rfl, -⟩ := h.position.exists_shown hstage
    obtain ⟨doc₂, item₂, hset', h', -⟩ := h.exists_removed hdoc₀ hne
    cases hset.symm.trans hset'
    obtain ⟨pos₂, rfl, h₂⟩ := h'.run (P := fun pos => pos = .gone)
      (fun call pos pos' hpos hleads => by subst hpos; exact hleads.gone) hdoc₀ hstands hsource rfl
      hrun
    refine ⟨Bool.eq_false_iff.2 fun hresolved => (h₂.isResolved_iff hstands).1 hresolved rfl, ?_⟩
    cases h₂.position with
    | gone stage start => rw [update, if_neg stage, start]

end

/-- The life of an item begins where it is found. -/
theorem discover_lives {doc₀ : Document} (hdoc₀ : doc₀.WellFormed) {o : Extraction}
    {containers : List NodeId} {sources : List Source} {survey : Survey}
    (hrun : discover doc₀ o containers sources [] = .ok survey) {item₀ : Item}
    (hitem : item₀ ∈ survey.items) (hsource : item₀.source.IsOrderly) :
    item₀.Stands doc₀ ∧ Lives doc₀ item₀ doc₀ item₀ .found := by
  have hformat : item₀.source.IsTex ∨ item₀.source.format = .mathml := by
    rcases hsource.format with ⟨delims, dialect, limit, hformat, -⟩ | hformat
    · exact .inl ⟨delims, dialect, limit, hformat⟩
    · exact .inr hformat
  have hstands := discover_stands hdoc₀ hrun hitem hformat
  have hnew : item₀.IsNew := by
    obtain ⟨found, hfound, hitems⟩ := discover_found hrun
    rw [hitems] at hitem
    exact (isUnread_of_mem_itemsFound hfound _
      ((sortByKey_isStableSort _).perm.mem_iff.1 hitem)).toIsNew
  exact ⟨hstands, hstands.isKept hdoc₀ hnew,
    .found (by simp [hnew.stage]) (by simp [hnew.content]) rfl rfl (.refl hdoc₀)⟩

/-- What is said of the life of an item for TeX or MathML holds from its discovery on, after any
number of calls, each of which was due. -/
theorem discover_life {doc₀ doc : Document} (hdoc₀ : doc₀.WellFormed) {o : Extraction}
    {containers : List NodeId} {sources : List Source} {survey : Survey}
    (hrun : discover doc₀ o containers sources [] = .ok survey) {item₀ item : Item}
    (hitem : item₀ ∈ survey.items) (hsource : item₀.source.IsOrderly)
    (hlife : Relation.ReflTransGen Leads (doc₀, item₀) (doc, item)) : Life doc₀ item₀ doc item := by
  obtain ⟨hstands, hstart⟩ := discover_lives hdoc₀ hrun hitem hsource
  obtain ⟨pos, -, h⟩ := hstart.run (P := fun _ => True) (fun _ _ _ _ _ => trivial) hdoc₀ hstands
    hsource trivial hlife
  exact h.life hdoc₀ hstands hsource

end Item

/-- A paragraph with a formula in MathML. -/
def Document.oneElement : Document :=
  .ofFragments [.build "p" [] [.text "a", .build "math" [] [.build "mi" [] [.text "x"]]]]

/-- MathML elements that are set apart, and of which the formulas are colored and put into another
element. -/
def Source.coloredElements : Source where
  format := .mathml
  before := [.display true]
  after := [.attribute "mathcolor" (.text "red"), .wrap (.text "math")]

theorem Source.coloredElements_isOrderly : coloredElements.IsOrderly where
  format := .inr rfl
  before := fun filter hfilter => by
    cases List.mem_singleton.1 hfilter
    exact fun _ _ _ hdata => hdata
  after := fun filter hfilter => by
    rcases List.mem_pair.1 hfilter with rfl | rfl
    · rintro _ _ _ ⟨f, rfl⟩
      exact ⟨_, rfl⟩
    · rintro _ _ _ ⟨f, rfl⟩
      exact ⟨_, rfl⟩

theorem Source.coloredElements_isSteady : coloredElements.IsSteady := by
  refine coloredElements_isOrderly.isSteady (fun filter hfilter => ?_) fun filter hfilter => ?_
  · cases List.mem_singleton.1 hfilter
    exact (Filter.IsOffered.displays true).isBlind
  · rcases List.mem_pair.1 hfilter with rfl | rfl
    · exact (Filter.IsOffered.sets _ _).isUniform
    · exact (Filter.IsOffered.wraps _).isUniform

theorem Document.exists_discover_oneElement : ∃ survey,
    discover oneElement {} [oneElement.body] [.coloredElements] [] = .ok survey ∧
    ∃ item ∈ survey.items, item.source = .coloredElements ∧ item.math = .node 3 := by
  obtain ⟨survey, hsurvey⟩ : ∃ survey,
      discover oneElement {} [oneElement.body] [.coloredElements] [] = .ok survey := by
    refine exists_discoverFrom (wellFormed_ofFragments _) ?_ ?_
    · intro source hsource ⟨name, find, read, hformat⟩
      cases List.mem_singleton.1 hsource
      cases hformat
    · intro id hid
      obtain ⟨container, hc⟩ := exists_body oneElement
      rw [List.mem_singleton.1 hid]
      exact find?_isSome_iff.1 (hc ▸ rfl)
  obtain ⟨found, hfound, hitems⟩ := discover_found hsurvey
  have helements : Source.elements oneElement oneElement.root = [(3, false)] := by decide +kernel
  let visit : Visit := { index := 0, container := oneElement.root, items := [] }
  have hown : itemsIn oneElement {} 0 oneElement.root [.coloredElements] =
      .ok [visit.itemOfElement .coloredElements 3 false] := by
    rw [itemsIn_elements rfl, helements]
    rfl
  obtain ⟨container, hget, hfound⟩ := Reader.exists_ok_of_bind hfound
  obtain rfl : oneElement.root = container := Except.ok.inj hget
  rw [hown] at hfound
  cases hfound
  refine ⟨survey, hsurvey, visit.itemOfElement .coloredElements 3 false, ?_, rfl, rfl⟩
  rw [hitems]
  exact (sortByKey_isStableSort _).perm.mem_iff.2 (List.mem_singleton_self _)

/-- The formula comes into its document, and would come back to its place. -/
theorem Item.discover_life_oneElement : oneElement.WellFormed ∧ ∃ survey item₀ doc item,
    discover oneElement {} [oneElement.body] [.coloredElements] [] = .ok survey ∧
    item₀ ∈ survey.items ∧ item₀.source.IsOrderly ∧ item₀.source.IsSteady ∧
    Relation.ReflTransGen Leads (oneElement, item₀) (doc, item) ∧
    item.stage = .inserted ∧ Life oneElement item₀ doc item := by
  have hdoc : oneElement.WellFormed := wellFormed_ofFragments _
  obtain ⟨survey, hsurvey, item₀, hitem, helements, hmath⟩ := exists_discover_oneElement
  have hsource : item₀.source.IsOrderly := helements ▸ Source.coloredElements_isOrderly
  have hsteady : item₀.source.IsSteady := helements ▸ Source.coloredElements_isSteady
  obtain ⟨hstands, h⟩ := discover_lives hdoc hsurvey hitem hsource
  have hreadable : item₀.IsReadable oneElement := ⟨false, by
    rw [helements, hmath]
    decide +kernel⟩
  obtain ⟨item₁, failure, hcompile, h₁, hfailure⟩ := h.exists_compile hsource
  obtain ⟨rfl, hread⟩ := hfailure.resolve_right fun hnot => hnot.2 hsteady hreadable
  obtain ⟨doc₂, item₂, htypeset, h₂, hset⟩ := h₁.exists_typeset hread
  obtain ⟨doc₃, item₃, replaced, pos, hupdate, h₃, site, rfl⟩ := h₂.exists_update hdoc hstands hset
  have hcompiles : Leads (oneElement, item₀) (oneElement, item₁) :=
    ⟨.compile, trivial, by simp only [Call.run, hcompile]⟩
  have htypesets : Leads (oneElement, item₁) (doc₂, item₂) := ⟨.typeset, hread, htypeset⟩
  have hupdates : Leads (doc₂, item₂) (doc₃, item₃) :=
    ⟨.update, hset, by simp only [Call.run, hupdate]; rfl⟩
  have hlife : Relation.ReflTransGen Leads (oneElement, item₀) (doc₃, item₃) :=
    ((Relation.ReflTransGen.single hcompiles).tail htypesets).tail hupdates
  refine ⟨hdoc, survey, item₀, doc₃, item₃, hsurvey, hitem, hsource, hsteady, hlife, ?_,
    discover_life hdoc hsurvey hitem hsource hlife⟩
  cases h₃.position with
  | shown names => exact names.stage

end Formulary
