import Formulary.Proofs.Session.Calls
import Formulary.Proofs.Session.IdleSession

/-! # Rendering after other calls

Calls lead from an idle session to an idle one, to a rendered one (`Session.IsRendered`) or to one
that was rendered and has its sources back (`Session.IsRestored`); only an update in its turn leads
to a rendered one (`Session.IsIdle.update`).  So rendering after some calls finishes its work if the
phases were done in their order, and puts nothing into the document if not (`render_finishes`). -/

namespace Formulary

open Formulary.Tree Document

namespace Session

variable {s s' : Session} {sources : List Source}

/-! ### Rendered sessions, and sessions that have their sources back -/

/-- The session has all stages of an open one behind it. -/
def IsRendered (sources : List Source) (s : Session) : Prop :=
  ∃ s₀ : Session, s₀.IsOpen sources ∧ Nonempty (s₀.Rendered s)

/-- The session has its sources back after all stages of an open one. -/
def IsRestored (sources : List Source) (s : Session) : Prop :=
  ∃ s₀ : Session, s₀.IsOpen sources ∧
    ∃ (s₁ : Session) (D : s₀.Rendered s₁) (pairs : List Replacement), D.Revived s pairs

theorem IsOpen.usual (h : s.IsOpen sources) (hs : Source.AreUsual sources) :
    Source.AreUsual s.sources := h.sought.symm ▸ hs

theorem IsRendered.finished (h : s.IsRendered sources) : s.finished = Phase.all := by
  obtain ⟨s₀, -, ⟨D⟩⟩ := h
  exact D.finished

theorem IsRendered.progress (h : s.IsRendered sources) : s.progress = .rendered := by
  obtain ⟨s₀, -, ⟨D⟩⟩ := h
  exact D.progress

theorem IsRendered.inserted (h : s.IsRendered sources) :
    ∀ item ∈ s.items, item.stage = .inserted ∧ item.isResolved = true := by
  obtain ⟨s₀, -, ⟨D⟩⟩ := h
  intro item hitem
  rw [D.items] at hitem
  obtain ⟨i, hi, rfl⟩ := List.mem_iff_getElem.1 hitem
  rw [List.getElem_zipWith]
  exact ⟨rfl, rfl⟩

theorem IsRendered.remove (h : s.IsRendered sources) (hs : Source.AreUsual sources)
    (hcall : s.removeFromDocument true = .ok s') : s'.IsRestored sources := by
  obtain ⟨s₀, hopen, ⟨D⟩⟩ := h
  obtain ⟨r, pairs, hremove, V⟩ := D.exists_restored hopen.wellFormed hopen.readable (hopen.usual hs)
  obtain rfl : r = s' := Except.ok.inj (hremove.symm.trans hcall)
  exact ⟨s₀, hopen, s, D, pairs, V⟩

theorem IsRestored.finished (h : s.IsRestored sources) :
    s.finished = [.discover, .compile, .typeset] := by
  obtain ⟨s₀, -, s₁, D, pairs, V⟩ := h
  rw [V.restored.session]

theorem IsRestored.isOpen (h : s.IsRestored sources) (hs : Source.AreUsual sources) :
    s.IsOpen sources := by
  obtain ⟨s₀, hopen, s₁, D, pairs, V⟩ := h
  have hsession := V.restored.session
  have hseeks : s.Seeks sources := by
    rw [hsession]
    exact ⟨D.sources.trans hopen.sought, D.containers, D.extraction⟩
  exact ⟨hseeks, V.restored.swapped.wellFormed,
    V.isReadable hopen.wellFormed hopen.readable (hopen.usual hs)⟩

theorem IsRestored.not_inserted (h : s.IsRestored sources) :
    ∀ item ∈ s.items, item.stage ≠ .inserted := by
  obtain ⟨s₀, -, s₁, D, pairs, V⟩ := h
  intro item hitem hinserted
  rw [V.restored.session] at hitem
  obtain ⟨i, hi, rfl⟩ := List.mem_iff_getElem.1 hitem
  simp only [List.getElem_zipWith] at hinserted
  cases hinserted

theorem IsRestored.exists_update (h : s.IsRestored sources) :
    ∃ s', s.update = .ok s' ∧ s'.IsRendered sources := by
  obtain ⟨s₀, hopen, s₁, D, pairs, V⟩ := h
  obtain ⟨s', hupdate, hrendered⟩ := V.exists_update hopen.wellFormed hopen.readable
  exact ⟨s', hupdate, s₀, hopen, hrendered⟩

theorem IsRendered.isOpen (h : s.IsRendered sources) (hs : Source.AreUsual sources)
    (hitems : s.items = []) : s.IsOpen sources := by
  have hmem : Phase.update ∈ s.finished := by
    rw [h.finished]
    decide
  have hremove := @removeFromDocument_outside s true (by simp [hitems]) hmem
  have hopen := (h.remove hs hremove).isOpen hs
  exact ⟨⟨hopen.sought, hopen.containers, hopen.extraction⟩, hopen.wellFormed, hopen.readable⟩

/-! ### The update and the removal -/

/-- What was typeset in its turn is put into the document. -/
theorem exists_update_of_isTypeset {doc : Document} {F : Findings doc sources} {added : List Node}
    (hset : F.IsTypeset added s) (hdoc : doc.WellFormed) (hread : doc.root.IsReadable)
    (hs : Source.AreUsual sources) (hfinished : s.finished = [.discover, .compile, .typeset]) :
    ∃ s', s.update = .ok s' ∧ s'.IsRendered sources := by
  obtain ⟨s', hupdate, hrendered⟩ := @Findings.IsTypeset.exists_update
    { document := doc, sources } s F added hset hdoc (F.layout hdoc hread) hs hfinished
  exact ⟨s', hupdate, _, ⟨⟨rfl, rfl, rfl⟩, hdoc, hread⟩, hrendered⟩

theorem done_eq_finished (h : .update ∉ s.finished) : s.done = s.finished :=
  List.filter_eq_self.2 fun _ hphase => decide_eq_true fun heq => h (heq ▸ hphase)

/-- An update leaves an idle session idle, but in its turn. -/
theorem IsIdle.update (h : s.IsIdle sources) (hs : Source.AreUsual sources)
    (hcall : s.update = .ok s') : s'.IsIdle sources ∧ s.finished <+: s'.finished ∨
      s.finished = [.discover, .compile, .typeset] ∧ s'.IsRendered sources := by
  by_cases hmem : .update ∈ s.finished
  · rw [update_of_mem hmem] at hcall
    cases hcall
    exact .inl ⟨h, List.prefix_rfl⟩
  · have hdone := done_eq_finished hmem
    rcases h.idle.unset_or with ⟨hne, hrank⟩ | ⟨heq, doc, hdoc, hread, F, added, hset⟩
    · rw [update_unset hrank hmem] at hcall
      cases hcall
      have hsame : (s.finish .update .rendered).done = s.done := by
        rw [done, finish, List.filter_append, done]
        exact List.append_nil _
      refine .inl ⟨⟨⟨⟨h.sought, h.containers, h.extraction⟩, h.wellFormed, h.readable⟩, ?_, ?_⟩,
        List.prefix_append ..⟩
      · rw [hsame]
        exact h.idle.again _ _
      · exact fun hall => hne (hdone.trans
          (List.append_cancel_right (hall : s.finished ++ [.update] = [_, _, _] ++ [.update])))
    · obtain ⟨s₁, hupdate, hrendered⟩ :=
        exists_update_of_isTypeset hset hdoc hread hs (hdone.symm.trans heq)
      obtain rfl : s₁ = s' := Except.ok.inj (hupdate.symm.trans hcall)
      exact .inr ⟨hdone.symm.trans heq, hrendered⟩

theorem IsIdle.remove {restore : Bool} (h : s.IsIdle sources)
    (hcall : s.removeFromDocument restore = .ok s') : s'.IsIdle sources := by
  by_cases hmem : .update ∈ s.finished
  · rw [removeFromDocument_outside h.not_inserted hmem] at hcall
    cases hcall
    refine ⟨⟨⟨h.sought, h.containers, h.extraction⟩, h.wellFormed, h.readable⟩, ?_, fun hall => ?_⟩
    · rw [show Session.done { s with
          finished := s.finished.filter (· ≠ .update), progress := .removed } = s.done from
        (List.filter_filter ..).trans (List.filter_congr fun _ _ => Bool.and_self _)]
      exact h.idle.again _ _
    · have hfilter : s.finished.filter (· ≠ .update) = Phase.all := hall
      have hupdate : Phase.update ∈ Phase.all := by decide
      rw [← hfilter] at hupdate
      simp at hupdate
  · rw [removeFromDocument, if_neg hmem] at hcall
    cases hcall
    exact h

/-! ### Calls -/

/-- How far a session is. -/
inductive Course (sources : List Source) (s : Session) : Prop
  | idle (h : s.IsIdle sources)
  | rendered (h : s.IsRendered sources)
  | restored (h : s.IsRestored sources)

/-- A call that leaves the place of the search to the session, brings the sources back when it takes
typeset forms out of the document, and does not forget items that are in it. -/
def Permits (s : Session) : Call → Prop
  | .discover containers => containers = none
  | .remove restore => restore = true
  | .reset => ∀ item ∈ s.items, item.stage ≠ .inserted
  | .compile | .typeset | .update | .render => True

/-- One such call. -/
def Proceeds (s s' : Session) : Prop := ∃ c, s.Permits c ∧ s.call c = .ok s'

namespace Course

theorem stage (h : s.Course sources) {phase : Phase}
    (hphase : phase ∈ [Phase.discover, .compile, .typeset]) {next : Except Fault Session}
    (hcall : next = .ok s') (hskip : phase ∈ s.finished → next = .ok s)
    (hidle : s.IsIdle sources → s'.IsIdle sources) : s'.Course sources := by
  have hsame : phase ∈ s.finished → s = s' := fun hmem =>
    Except.ok.inj ((hskip hmem).symm.trans hcall)
  cases h with
  | idle h => exact .idle (hidle h)
  | rendered h =>
    obtain rfl := hsame (h.finished ▸ List.mem_append_left [Phase.update] hphase)
    exact .rendered h
  | restored h =>
    obtain rfl := hsame (h.finished ▸ hphase)
    exact .restored h

theorem discover (h : s.Course sources) (hs : Source.AreUsual sources)
    (hcall : s.discover none = .ok s') : s'.Course sources :=
  h.stage (by decide) hcall discover_of_mem fun h => (h.discover hs hcall).1

theorem compile (h : s.Course sources) (hs : Source.AreUsual sources)
    (hcall : s.compile = .ok s') : s'.Course sources :=
  h.stage (by decide) hcall compile_of_mem fun h => (h.compile hs hcall).1

theorem typeset (h : s.Course sources) (hs : Source.AreUsual sources)
    (hcall : s.typeset = .ok s') : s'.Course sources :=
  h.stage (by decide) hcall typeset_of_mem fun h => (h.typeset hs hcall).1

theorem update (h : s.Course sources) (hs : Source.AreUsual sources)
    (hcall : s.update = .ok s') : s'.Course sources := by
  cases h with
  | idle h =>
    rcases h.update hs hcall with ⟨h, -⟩ | ⟨-, h⟩
    · exact .idle h
    · exact .rendered h
  | rendered h =>
    rw [update_of_mem (by rw [h.finished]; decide)] at hcall
    cases hcall
    exact .rendered h
  | restored h =>
    obtain ⟨s₁, hupdate, hrendered⟩ := h.exists_update
    obtain rfl : s₁ = s' := Except.ok.inj (hupdate.symm.trans hcall)
    exact .rendered hrendered

theorem remove (h : s.Course sources) (hs : Source.AreUsual sources)
    (hcall : s.removeFromDocument true = .ok s') : s'.Course sources := by
  cases h with
  | idle h => exact .idle (h.remove hcall)
  | rendered h => exact .restored (h.remove hs hcall)
  | restored h =>
    rw [removeFromDocument, if_neg (by rw [h.finished]; decide)] at hcall
    cases hcall
    exact .restored h

theorem reset (h : s.Course sources) (hs : Source.AreUsual sources)
    (hnone : ∀ item ∈ s.items, item.stage ≠ .inserted) : s.reset.Course sources := by
  cases h with
  | idle h => exact .idle h.toIsOpen.reset
  | rendered h =>
    have hitems : s.items = [] := List.eq_nil_iff_forall_not_mem.2 fun item hitem =>
      hnone item hitem (h.inserted item hitem).1
    exact .idle (h.isOpen hs hitems).reset
  | restored h => exact .idle (h.isOpen hs).reset

theorem proceeds (h : s.Course sources) (hs : Source.AreUsual sources) (hstep : s.Proceeds s') :
    s'.Course sources := by
  obtain ⟨c, hpermits, hcall⟩ := hstep
  cases c with
  | discover containers =>
    obtain rfl : containers = none := hpermits
    exact h.discover hs hcall
  | compile => exact h.compile hs hcall
  | typeset => exact h.typeset hs hcall
  | update => exact h.update hs hcall
  | remove restore =>
    obtain rfl : restore = true := hpermits
    exact h.remove hs hcall
  | reset =>
    cases hcall
    exact h.reset hs hpermits
  | render =>
    obtain ⟨s₁, hdiscover, hcall⟩ := Reader.exists_ok_of_bind hcall
    obtain ⟨s₂, hcompile, hcall⟩ := Reader.exists_ok_of_bind hcall
    obtain ⟨s₃, htypeset, hupdate⟩ := Reader.exists_ok_of_bind hcall
    exact (((h.discover hs hdiscover).compile hs hcompile).typeset hs htypeset).update hs hupdate

theorem of_proceeds (h : s.Course sources) (hs : Source.AreUsual sources)
    (hsteps : Relation.ReflTransGen Proceeds s s') : s'.Course sources := by
  induction hsteps with
  | refl => exact h
  | tail _ hstep ih => exact ih.proceeds hs hstep

end Course

/-! ### Rendering -/

section

variable {doc : Document} {F : Findings doc sources}

theorem exists_update_of_isRead (hisRead : F.IsRead s) (hdoc : doc.WellFormed)
    (hread : doc.root.IsReadable) (hs : Source.AreUsual sources)
    (hfinished : s.finished = [.discover, .compile]) :
    ∃ s₁ s', s.typeset = .ok s₁ ∧ s₁.update = .ok s' ∧ s'.IsRendered sources := by
  obtain ⟨s₁, added, htypeset, hset, hfinished₁⟩ :=
    hisRead.exists_typeset hdoc hs (by rw [hfinished]; decide)
  rw [hfinished] at hfinished₁
  obtain ⟨s', hupdate, hrendered⟩ := exists_update_of_isTypeset hset hdoc hread hs hfinished₁
  exact ⟨s₁, s', htypeset, hupdate, hrendered⟩

theorem exists_update_of_isFound (hfound : F.IsFound s) (hdoc : doc.WellFormed)
    (hread : doc.root.IsReadable) (hs : Source.AreUsual sources)
    (hfinished : s.finished = [.discover]) :
    ∃ s₁ s₂ s', s.compile = .ok s₁ ∧ s₁.typeset = .ok s₂ ∧ s₂.update = .ok s' ∧
      s'.IsRendered sources := by
  obtain ⟨s₁, hcompile, hisRead, hfinished₁⟩ :=
    hfound.exists_compile hdoc hs (by rw [hfinished]; decide)
  rw [hfinished] at hfinished₁
  obtain ⟨s₂, s', hrest⟩ := exists_update_of_isRead hisRead hdoc hread hs hfinished₁
  exact ⟨s₁, s₂, s', hcompile, hrest⟩

end

/-- Rendering finishes what stages in their order have begun. -/
theorem IsIdle.exists_render (h : s.IsIdle sources) (hs : Source.AreUsual sources)
    (hbegins : s.finished <+: Phase.all) : ∃ s', s.render = .ok s' ∧ s'.IsRendered sources := by
  replace hbegins : s.finished <+: [.discover, .compile, .typeset] :=
    (List.prefix_concat_iff.1 hbegins).resolve_left h.pending
  have hidle := h.idle
  rw [done_eq_finished fun hmem => by simpa using hbegins.subset hmem] at hidle
  have hdoc := h.wellFormed
  have hread := h.readable
  generalize hfinished : s.finished = finished at hidle hbegins
  cases hidle with
  | anew hitems herrors =>
    obtain ⟨s₁, F, hdiscover, hfound, hfinished₁⟩ := Findings.exists_discover h.toSeeks hdoc hs
      hitems herrors (by rw [hfinished]; decide)
    rw [hfinished] at hfinished₁
    obtain ⟨s₂, s₃, s', hcompile, htypeset, hupdate, hrendered⟩ :=
      exists_update_of_isFound hfound hdoc hread hs hfinished₁
    exact ⟨s', render_eq hdiscover hcompile htypeset hupdate, hrendered⟩
  | found hfound =>
    rw [hfound.document] at hdoc hread
    obtain ⟨s₂, s₃, s', hcompile, htypeset, hupdate, hrendered⟩ :=
      exists_update_of_isFound hfound hdoc hread hs hfinished
    have hdiscover : s.discover none = .ok s := discover_of_mem (by rw [hfinished]; decide)
    exact ⟨s', render_eq hdiscover hcompile htypeset hupdate, hrendered⟩
  | read hisRead =>
    rw [hisRead.document] at hdoc hread
    obtain ⟨s₃, s', htypeset, hupdate, hrendered⟩ :=
      exists_update_of_isRead hisRead hdoc hread hs hfinished
    have hdiscover : s.discover none = .ok s := discover_of_mem (by rw [hfinished]; decide)
    have hcompile : s.compile = .ok s := compile_of_mem (by rw [hfinished]; decide)
    exact ⟨s', render_eq hdiscover hcompile htypeset hupdate, hrendered⟩
  | typeset hdoc hread hset =>
    obtain ⟨s', hupdate, hrendered⟩ := exists_update_of_isTypeset hset hdoc hread hs hfinished
    have hdiscover : s.discover none = .ok s := discover_of_mem (by rw [hfinished]; decide)
    have hcompile : s.compile = .ok s := compile_of_mem (by rw [hfinished]; decide)
    have htypeset : s.typeset = .ok s := typeset_of_mem (by rw [hfinished]; decide)
    exact ⟨s', render_eq hdiscover hcompile htypeset hupdate, hrendered⟩
  | astray h => exact absurd hbegins h.order

/-- Rendering does not finish what stages out of their order have begun. -/
theorem IsIdle.render (h : s.IsIdle sources) (hs : Source.AreUsual sources)
    (hbegins : ¬s.finished <+: Phase.all) (hcall : s.render = .ok s') : s'.IsIdle sources := by
  obtain ⟨s₁, hdiscover, hcall⟩ := Reader.exists_ok_of_bind hcall
  obtain ⟨s₂, hcompile, hcall⟩ := Reader.exists_ok_of_bind hcall
  obtain ⟨s₃, htypeset, hupdate⟩ := Reader.exists_ok_of_bind hcall
  obtain ⟨h₁, hle₁⟩ := h.discover hs hdiscover
  obtain ⟨h₂, hle₂⟩ := h₁.compile hs hcompile
  obtain ⟨h₃, hle₃⟩ := h₂.typeset hs htypeset
  rcases h₃.update hs hupdate with ⟨h', -⟩ | ⟨hfinished, -⟩
  · exact h'
  · refine absurd ((hle₁.trans (hle₂.trans hle₃)).trans ?_) hbegins
    rw [hfinished]
    decide

theorem Course.exists_render (h : s.Course sources) (hs : Source.AreUsual sources)
    (hbegins : s.finished <+: Phase.all) : ∃ s', s.render = .ok s' ∧ s'.IsRendered sources := by
  cases h with
  | idle h => exact h.exists_render hs hbegins
  | rendered h =>
    have hmem : ∀ phase ∈ Phase.all, phase ∈ s.finished := fun phase => h.finished ▸ id
    exact ⟨s, render_eq (discover_of_mem (hmem _ (by decide))) (compile_of_mem (hmem _ (by decide)))
      (typeset_of_mem (hmem _ (by decide))) (update_of_mem (hmem _ (by decide))), h⟩
  | restored h =>
    have hmem : ∀ phase ∈ [Phase.discover, .compile, .typeset], phase ∈ s.finished :=
      fun phase => h.finished ▸ id
    obtain ⟨s', hupdate, hrendered⟩ := h.exists_update
    exact ⟨s', render_eq (discover_of_mem (hmem _ (by decide)))
      (compile_of_mem (hmem _ (by decide))) (typeset_of_mem (hmem _ (by decide))) hupdate, hrendered⟩

theorem Course.render (h : s.Course sources) (hs : Source.AreUsual sources)
    (hbegins : ¬s.finished <+: Phase.all) (hcall : s.render = .ok s') : s'.IsIdle sources := by
  cases h with
  | idle h => exact h.render hs hbegins hcall
  | rendered h => exact absurd (h.finished ▸ List.prefix_rfl) hbegins
  | restored h =>
    rw [h.finished] at hbegins
    exact absurd (by decide) hbegins

theorem isOpen_new {doc : Document} (hdoc : doc.WellFormed) (hplain : doc.IsPlain)
    (sources : List Source) : IsOpen sources { document := doc, sources } where
  sought := rfl
  containers := rfl
  extraction := rfl
  wellFormed := hdoc
  readable := hplain.isReadable (mem_nodes_of_mem_root doc.root.self_mem_subtrees)

end Session

/-- Rendering after some calls, none of which failed, succeeds, ends with the update and leaves
every item in the document, if the phases that were done since the last reset were done in their
order, an update that was undone apart.  If they were not, a rendering that does not fail leaves no
item in the document. -/
theorem render_finishes (doc : Document) (hdoc : doc.WellFormed) (hplain : doc.IsPlain)
    (sources : List Source) (hs : Source.AreUsual sources) {s : Session}
    (hcalls : Relation.ReflTransGen Session.Proceeds { document := doc, sources } s) :
    (s.finished <+: Phase.all → ∃ s', s.render = .ok s' ∧ s'.progress = .rendered ∧
      ∀ item ∈ s'.items, item.stage = .inserted ∧ item.isResolved = true) ∧
    (¬s.finished <+: Phase.all → ∀ s', s.render = .ok s' →
      ∀ item ∈ s'.items, item.stage ≠ .inserted) := by
  have hnew : Session.Course sources { document := doc, sources } :=
    .idle (Session.isOpen_new hdoc hplain sources).reset
  have hcourse := hnew.of_proceeds hs hcalls
  refine ⟨fun hbegins => ?_, fun hbegins s' hrender => (hcourse.render hs hbegins hrender).not_inserted⟩
  obtain ⟨s', hrender, hrendered⟩ := hcourse.exists_render hs hbegins
  exact ⟨s', hrender, hrendered.progress, hrendered.inserted⟩

/-- A paragraph with one formula. -/
def Document.oneFormula : Document := .ofFragments [.build "p" [] [.text "$x$"]]

theorem Document.isPlain_oneFormula : oneFormula.IsPlain := by
  rw [IsPlain]
  decide

/-- The document can be rendered again after its sources came back and the session was reset. -/
theorem render_finishes_oneFormula :
    (oneFormula.WellFormed ∧ oneFormula.IsPlain ∧ Source.AreUsual [.tex]) ∧
    ∃ s, Relation.ReflTransGen Session.Proceeds { document := oneFormula, sources := [.tex] } s ∧
      s.finished = [] ∧
      (s.finished <+: Phase.all → ∃ s', s.render = .ok s' ∧ s'.progress = .rendered ∧
        ∀ item ∈ s'.items, item.stage = .inserted ∧ item.isResolved = true) ∧
      (¬s.finished <+: Phase.all → ∀ s', s.render = .ok s' →
        ∀ item ∈ s'.items, item.stage ≠ .inserted) := by
  have hdoc : oneFormula.WellFormed := wellFormed_ofFragments _
  have hs : Source.AreUsual [.tex] := .inl rfl
  have hopen := Session.isOpen_new hdoc isPlain_oneFormula [.tex]
  obtain ⟨s₁, hrender, hrendered⟩ := hopen.reset.exists_render hs List.nil_prefix
  obtain ⟨s₀, hopen, ⟨D⟩⟩ := hrendered
  obtain ⟨r, pairs, hremove, V⟩ := D.exists_restored hopen.wellFormed hopen.readable (hopen.usual hs)
  have hrestored : r.IsRestored [.tex] := ⟨s₀, hopen, s₁, D, pairs, V⟩
  have hcalls : Relation.ReflTransGen Session.Proceeds
      { document := oneFormula, sources := [.tex] } r.reset :=
    ((Relation.ReflTransGen.single ⟨.render, trivial, hrender⟩).tail ⟨.remove true, rfl, hremove⟩).tail
      ⟨.reset, hrestored.not_inserted, rfl⟩
  exact ⟨⟨hdoc, isPlain_oneFormula, hs⟩, r.reset, hcalls, rfl,
    render_finishes oneFormula hdoc isPlain_oneFormula [.tex] hs hcalls⟩

/-- A rendering after an update that came before everything else ends with typesetting. -/
theorem Session.IsOpen.render_overtaken {s : Session} {sources : List Source}
    (h : s.IsOpen sources) (hs : Source.AreUsual sources) (hitems : s.items = [])
    (herrors : s.errors = []) (hfinished : s.finished = [.update]) :
    ∃ s', s.render = .ok s' ∧ s'.progress = .typeset := by
  obtain ⟨s₁, F, hdiscover, hfound, hfinished₁⟩ := Findings.exists_discover h.toSeeks h.wellFormed
    hs hitems herrors (by rw [hfinished]; decide)
  rw [hfinished] at hfinished₁
  obtain ⟨s₂, hcompile, hisRead, hfinished₂⟩ :=
    hfound.exists_compile h.wellFormed hs (by rw [hfinished₁]; decide)
  rw [hfinished₁] at hfinished₂
  have hunfinished : .typeset ∉ s₂.finished := by
    rw [hfinished₂]
    decide
  obtain ⟨s₃, added, htypeset, -, hfinished₃⟩ := hisRead.exists_typeset h.wellFormed hs hunfinished
  rw [hfinished₂] at hfinished₃
  refine ⟨s₃, render_eq hdiscover hcompile htypeset (update_of_mem (by rw [hfinished₃]; decide)), ?_⟩
  rw [Session.typeset, if_neg hunfinished] at htypeset
  obtain ⟨⟨document, items⟩, -, htypeset⟩ := Reader.exists_ok_of_bind htypeset
  cases htypeset
  rfl

/-- If the document is updated before it is searched, a rendering does not finish its work. -/
theorem render_unfinished_oneFormula :
    ∃ s, Relation.ReflTransGen Session.Proceeds { document := oneFormula, sources := [.tex] } s ∧
      ¬∃ s', s.render = .ok s' ∧ s'.progress = .rendered ∧
        ∀ item ∈ s'.items, item.isResolved = true → item.stage = .inserted := by
  have hdoc : oneFormula.WellFormed := wellFormed_ofFragments _
  have hopen := Session.isOpen_new hdoc isPlain_oneFormula [.tex]
  obtain ⟨s', hrender, hprogress⟩ := Session.IsOpen.render_overtaken
    (s := { document := oneFormula, sources := [.tex], finished := [.update], progress := .rendered })
    ⟨⟨rfl, rfl, rfl⟩, hopen.wellFormed, hopen.readable⟩ (.inl rfl) rfl rfl rfl
  refine ⟨_, .single ⟨.update, trivial, rfl⟩, fun ⟨s₁, hrender₁, hprogress₁, _⟩ => ?_⟩
  obtain rfl : s' = s₁ := Except.ok.inj (hrender.symm.trans hrender₁)
  rw [hprogress] at hprogress₁
  cases hprogress₁

end Formulary
