import Formulary.Proofs.Restoration.SecondUpdate
import Formulary.Proofs.Session.ItemHistory

/-! # Idle sessions

A session is idle as long as nothing of it is in the document (`Session.IsIdle`).  Its phases are
done in their order so far, or one of them was done before there was anything to do, and then the
session has gone astray (`Session.Astray`).  A session stays idle after every stage but an update.
-/

namespace Formulary

open Formulary.Tree Document

/-- All phases, in their order. -/
def Phase.all : List Phase := [.discover, .compile, .typeset, .update]

/-! ### Items that are not typeset -/

section

variable {doc doc' : Document} {items items' : List Item} {s s' : Session}

theorem Item.IsNew.rank_lt {item : Item} (h : item.IsNew) :
    item.stage.rank < Stage.typeset.rank := by
  rw [h.stage]
  decide

theorem Item.rank_read_lt {item : Item} (h : item.stage.rank < Stage.typeset.rank) :
    (item.read doc).stage.rank < Stage.typeset.rank := by
  rw [read, compile]
  split
  · split
    · show Stage.compiled.rank < Stage.typeset.rank
      decide
    · exact h
  · exact h

theorem Session.typesetAll_new (hitems : ∀ item ∈ items, item.IsNew)
    (h : typesetAll doc items = .ok (doc', items')) : items = [] ∧ doc' = doc ∧ items' = [] := by
  cases items with
  | nil =>
    cases h
    exact ⟨rfl, rfl, rfl⟩
  | cons item rest =>
    obtain ⟨⟨doc₁, item'⟩, htypeset, -⟩ := Reader.exists_ok_of_bind h
    have hnew := hitems item (List.mem_cons_self ..)
    rw [Item.typeset, if_pos hnew.rank_lt, hnew.root] at htypeset
    cases htypeset

theorem Session.removeAll_outside {restore : Bool} (h : ∀ item ∈ items, item.stage ≠ .inserted) :
    removeAll restore doc items = .ok (doc, items) := by
  induction items with
  | nil => rfl
  | cons item rest ih =>
    obtain ⟨hitem, hrest⟩ := List.forall_mem_cons.1 h
    simp only [removeAll, if_neg hitem, ih hrest, bind, Except.bind, pure, Except.pure]

theorem Session.removeFromDocument_outside {restore : Bool}
    (h : ∀ item ∈ s.items, item.stage ≠ .inserted) (hfinished : .update ∈ s.finished) :
    s.removeFromDocument restore = .ok { s with
      finished := s.finished.filter (· ≠ .update)
      progress := .removed } := by
  rw [removeFromDocument, if_pos hfinished, removeAll_outside h]
  rfl

end

/-! ### Idle sessions -/

namespace Session

variable {s s' : Session} {sources : List Source}

/-- The phases that are done, apart from the update. -/
def done (s : Session) : List Phase := s.finished.filter (· ≠ .update)

theorem done_append {phase : Phase} (h : s'.finished = s.finished ++ [phase])
    (hne : phase ≠ .update) : s'.done = s.done ++ [phase] := by
  rw [done, h, List.filter_append, done]
  simp [hne]

theorem mem_done {phase : Phase} (hne : phase ≠ .update) : phase ∈ s.done ↔ phase ∈ s.finished := by
  simp [done, hne]

theorem finished_ne_all {phase : Phase} (h : s'.finished = s.finished ++ [phase])
    (hne : phase ≠ .update) : s'.finished ≠ Phase.all := fun heq => by
  have hlast := congrArg List.getLast? (h.symm.trans heq)
  rw [List.getLast?_concat] at hlast
  exact hne (Option.some.inj hlast)

/-- A session in which a phase was done before there was anything to do. -/
structure Astray (s : Session) (done : List Phase) : Prop where
  order : ¬done <+: [.discover, .compile, .typeset]
  items : ∀ item ∈ s.items, item.stage.rank < Stage.typeset.rank
  undiscovered : .discover ∉ done → s.items = []
  unset : .typeset ∉ done → .compile ∈ done ∧ ∀ item ∈ s.items, item.IsNew

/-- How far a session is of which nothing is in the document, where `done` are the phases that are
done. -/
inductive Idle (sources : List Source) (s : Session) : List Phase → Prop
  | anew (items : s.items = []) (errors : s.errors = []) : Idle sources s []
  | found {doc : Document} {F : Findings doc sources} (h : F.IsFound s) :
      Idle sources s [.discover]
  | read {doc : Document} {F : Findings doc sources} (h : F.IsRead s) :
      Idle sources s [.discover, .compile]
  | typeset {doc : Document} {F : Findings doc sources} {added : List Node}
      (wellFormed : doc.WellFormed) (readable : doc.root.IsReadable) (h : F.IsTypeset added s) :
      Idle sources s [.discover, .compile, .typeset]
  | astray {done : List Phase} (h : s.Astray done) : Idle sources s done

/-- The document of a session can be searched. -/
structure IsOpen (sources : List Source) (s : Session) : Prop extends s.Seeks sources where
  wellFormed : s.document.WellFormed
  readable : s.document.root.IsReadable

/-- Nothing of a session is in the document. -/
structure IsIdle (sources : List Source) (s : Session) : Prop extends s.IsOpen sources where
  idle : Idle sources s s.done
  pending : s.finished ≠ Phase.all

/-- What is finished, and what was told, does not matter to how far a session is. -/
theorem Idle.again {done : List Phase} (h : Idle sources s done) (finished : List Phase)
    (progress : Progress) : Idle sources { s with finished, progress } done := by
  cases h with
  | anew hitems herrors => exact .anew hitems herrors
  | found h =>
    exact .found ⟨⟨h.sought, h.containers, h.extraction⟩, h.document, h.items, h.errors⟩
  | read h =>
    exact .read ⟨⟨h.sought, h.containers, h.extraction⟩, h.document, h.items, h.errors⟩
  | typeset hdoc hread h =>
    exact .typeset hdoc hread
      ⟨⟨h.sought, h.containers, h.extraction⟩, h.furnished, h.length, h.items, h.errors, h.forms⟩
  | astray h => exact .astray ⟨h.order, h.items, h.undiscovered, h.unset⟩

theorem IsOpen.reset (h : s.IsOpen sources) : s.reset.IsIdle sources where
  sought := h.sought
  containers := h.containers
  extraction := h.extraction
  wellFormed := h.wellFormed
  readable := h.readable
  idle := .anew rfl rfl
  pending := show ([] : List Phase) ≠ Phase.all by decide

/-! ### The stages of an idle session -/

theorem Astray.order_append {done : List Phase} {phase : Phase} (h : s.Astray done) :
    ¬done ++ [phase] <+: [.discover, .compile, .typeset] :=
  fun hall => h.order ((List.prefix_append ..).trans hall)

/-- A session is idle after a stage but the update, if it is as far then as it should be. -/
theorem IsIdle.stage (h : s.IsIdle sources) {phase : Phase} (hne : phase ≠ .update)
    {next : Except Fault Session} (hcall : next = .ok s')
    (hskip : phase ∈ s.finished → next = .ok s)
    (hstage : phase ∉ s.finished → ∀ {done}, phase ∉ done → Idle sources s done →
      s'.finished = s.finished ++ [phase] ∧ s'.IsOpen sources ∧
        Idle sources s' (done ++ [phase])) :
    s'.IsIdle sources ∧ s.finished <+: s'.finished := by
  by_cases hmem : phase ∈ s.finished
  · obtain rfl : s = s' := Except.ok.inj ((hskip hmem).symm.trans hcall)
    exact ⟨h, List.prefix_rfl⟩
  · obtain ⟨hfinished, hopen, hidle⟩ := hstage hmem (mt (mem_done hne).1 hmem) h.idle
    refine ⟨⟨hopen, ?_, finished_ne_all hfinished hne⟩, hfinished ▸ List.prefix_append ..⟩
    rwa [done_append hfinished hne]

theorem IsOpen.of_document (h : s.IsOpen sources) (hseeks : s'.Seeks sources)
    (hdocument : s'.document = s.document) : s'.IsOpen sources :=
  ⟨hseeks, hdocument ▸ h.wellFormed, hdocument ▸ h.readable⟩

theorem IsIdle.discover (h : s.IsIdle sources) (hs : Source.AreUsual sources)
    (hcall : s.discover none = .ok s') : s'.IsIdle sources ∧ s.finished <+: s'.finished := by
  refine h.stage (by decide) hcall discover_of_mem fun hunfinished done hundone hidle => ?_
  cases hidle with
  | anew hitems herrors =>
    obtain ⟨s₁, F, hdiscover, hfound, hfinished⟩ :=
      Findings.exists_discover h.toSeeks h.wellFormed hs hitems herrors hunfinished
    obtain rfl : s₁ = s' := Except.ok.inj (hdiscover.symm.trans hcall)
    exact ⟨hfinished, h.toIsOpen.of_document hfound.toSeeks hfound.document, .found hfound⟩
  | astray hastray =>
    obtain ⟨found, reports, hfound, rfl⟩ :=
      discover_sorted hunfinished (hastray.undiscovered hundone) hcall
    have hnew : ∀ item ∈ sortByKey Item.key found, item.IsNew := fun item hitem =>
      (isUnread_of_mem_itemsFound hfound item
        ((sortByKey_isStableSort found).perm.mem_iff.1 hitem)).toIsNew
    refine ⟨rfl, h.toIsOpen.of_document ⟨h.sought, h.containers, h.extraction⟩ rfl, .astray ?_⟩
    exact {
      order := hastray.order_append
      items := fun item hitem => (hnew item hitem).rank_lt
      undiscovered := fun hnot => absurd (List.mem_append_right _ (List.mem_singleton_self _)) hnot
      unset := fun hunset => ⟨List.mem_append_left _
        (hastray.unset fun hmem => hunset (List.mem_append_left _ hmem)).1, hnew⟩ }
  | _ => simp at hundone

theorem IsIdle.compile (h : s.IsIdle sources) (hs : Source.AreUsual sources)
    (hcall : s.compile = .ok s') : s'.IsIdle sources ∧ s.finished <+: s'.finished := by
  refine h.stage (by decide) hcall compile_of_mem fun hunfinished done hundone hidle => ?_
  -- out of its turn, reading leaves nothing to be typeset
  have hastray : ¬done ++ [.compile] <+: [.discover, .compile, .typeset] →
      (∀ item ∈ s.items, item.stage.rank < Stage.typeset.rank) →
      (.discover ∉ done → s.items = []) → (.typeset ∉ done → s.items = []) →
      s'.finished = s.finished ++ [.compile] ∧ s'.IsOpen sources ∧
        Idle sources s' (done ++ [.compile]) := fun horder hrank hundiscovered hunset => by
    obtain ⟨reports, rfl⟩ := compile_parts hunfinished hcall
    refine ⟨rfl, h.toIsOpen.of_document ⟨h.sought, h.containers, h.extraction⟩ rfl, .astray ?_⟩
    exact {
      order := horder
      items := fun item hitem => by
        obtain ⟨old, hold, rfl⟩ := List.mem_map.1 hitem
        exact Item.rank_read_lt (hrank old (List.mem_filter.1 hold).1)
      undiscovered := fun hnot => by
        rw [hundiscovered fun hmem => hnot (List.mem_append_left _ hmem)]
        rfl
      unset := fun hnot => by
        rw [hunset fun hmem => hnot (List.mem_append_left _ hmem)]
        exact ⟨List.mem_append_right _ (List.mem_singleton_self _),
          fun item hitem => absurd hitem List.not_mem_nil⟩ }
  cases hidle with
  | anew hitems herrors =>
    exact hastray (by decide) (fun item hitem => absurd (hitems ▸ hitem) List.not_mem_nil)
      (fun _ => hitems) fun _ => hitems
  | found hfound =>
    obtain ⟨s₁, hcompile, hread, hfinished⟩ :=
      hfound.exists_compile (hfound.document ▸ h.wellFormed) hs hunfinished
    obtain rfl : s₁ = s' := Except.ok.inj (hcompile.symm.trans hcall)
    exact ⟨hfinished, h.toIsOpen.of_document hread.toSeeks
      (hread.document.trans hfound.document.symm), .read hread⟩
  | astray h' =>
    exact hastray h'.order_append h'.items h'.undiscovered fun hunset =>
      absurd (h'.unset hunset).1 hundone
  | _ => simp at hundone

theorem IsIdle.typeset (h : s.IsIdle sources) (hs : Source.AreUsual sources)
    (hcall : s.typeset = .ok s') : s'.IsIdle sources ∧ s.finished <+: s'.finished := by
  refine h.stage (by decide) hcall typeset_of_mem fun hunfinished done hundone hidle => ?_
  -- what is new cannot be typeset, so there is nothing
  have hastray : (∀ item ∈ s.items, item.IsNew) →
      ¬done ++ [.typeset] <+: [.discover, .compile, .typeset] →
      s'.finished = s.finished ++ [.typeset] ∧ s'.IsOpen sources ∧
        Idle sources s' (done ++ [.typeset]) := fun hnew horder => by
    rw [Session.typeset, if_neg hunfinished] at hcall
    obtain ⟨⟨document, items⟩, hall, hcall⟩ := Reader.exists_ok_of_bind hcall
    cases hcall
    obtain ⟨-, rfl, rfl⟩ := typesetAll_new hnew hall
    refine ⟨rfl, h.toIsOpen.of_document ⟨h.sought, h.containers, h.extraction⟩ rfl, .astray ?_⟩
    exact {
      order := horder
      items := fun item hitem => absurd hitem List.not_mem_nil
      undiscovered := fun _ => rfl
      unset := fun hunset =>
        absurd (List.mem_append_right _ (List.mem_singleton_self _)) hunset }
  cases hidle with
  | anew hitems herrors =>
    exact hastray (fun item hitem => absurd (hitems ▸ hitem) List.not_mem_nil) (by decide)
  | found hfound =>
    refine hastray (fun item hitem => ?_) (by decide)
    rw [hfound.items] at hitem
    obtain ⟨f, -, rfl⟩ := List.mem_map.1 hitem
    cases f <;> exact ⟨rfl, rfl, rfl⟩
  | read hread =>
    obtain ⟨s₁, added, htypeset, hset, hfinished⟩ :=
      hread.exists_typeset (hread.document ▸ h.wellFormed) hs hunfinished
    obtain rfl : s₁ = s' := Except.ok.inj (htypeset.symm.trans hcall)
    have hreadable := h.readable
    rw [hread.document] at hreadable
    exact ⟨hfinished, ⟨hset.toSeeks, hset.furnished.wellFormed, hset.furnished.root ▸ hreadable⟩,
      .typeset (hread.document ▸ h.wellFormed) hreadable hset⟩
  | astray h' => exact hastray (h'.unset hundone).2 h'.order_append
  | _ => simp at hundone

/-- The items of an idle session are not typeset, or they are in their turn. -/
theorem Idle.unset_or {done : List Phase} (h : Idle sources s done) :
    done ≠ [.discover, .compile, .typeset] ∧
      (∀ item ∈ s.items, item.stage.rank < Stage.typeset.rank) ∨
    done = [.discover, .compile, .typeset] ∧ ∃ doc, doc.WellFormed ∧ doc.root.IsReadable ∧
      ∃ (F : Findings doc sources) (added : List Node), F.IsTypeset added s := by
  cases h with
  | anew hitems herrors =>
    exact .inl ⟨by decide, fun item hitem => absurd (hitems ▸ hitem) List.not_mem_nil⟩
  | found hfound =>
    refine .inl ⟨by decide, fun item hitem => ?_⟩
    rw [hfound.items] at hitem
    obtain ⟨f, -, rfl⟩ := List.mem_map.1 hitem
    cases f <;> exact (by decide : Stage.unprocessed.rank < Stage.typeset.rank)
  | read hread =>
    refine .inl ⟨by decide, fun item hitem => ?_⟩
    rw [hread.items] at hitem
    obtain ⟨f, -, rfl⟩ := List.mem_map.1 hitem
    exact (by decide : Stage.compiled.rank < Stage.typeset.rank)
  | typeset hdoc hread hset => exact .inr ⟨rfl, _, hdoc, hread, _, _, hset⟩
  | astray h => exact .inl ⟨fun hall => h.order (hall ▸ List.prefix_rfl), h.items⟩

theorem IsIdle.not_inserted (h : s.IsIdle sources) : ∀ item ∈ s.items, item.stage ≠ .inserted := by
  intro item hitem hinserted
  rcases h.idle.unset_or with ⟨-, hrank⟩ | ⟨-, doc, -, -, F, added, hset⟩
  · have hlt := hrank item hitem
    rw [hinserted] at hlt
    exact absurd hlt (by decide)
  · rw [hset.items] at hitem
    obtain ⟨i, hi, rfl⟩ := List.mem_iff_getElem.1 hitem
    simp only [Findings.typeset, List.getElem_zipWith] at hinserted
    cases hinserted

end Session

end Formulary
