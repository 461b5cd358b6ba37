import Formulary.Proofs.Discovery.StableSort
import Formulary.Proofs.Session.Calls

/-! # What a call does to an item

A discovery lists items that have not been read (`Session.discover_sorted`,
`isUnread_of_mem_itemsFound`).  Reading keeps the items that can be read in the list, records the
others with their errors, and reports what became of each (`Session.compile_parts`).  Typesetting,
an update and a removal change the items in place and read none of them: an item stays what it is,
is not touched as long as it is not processed, and comes further or stays where it is, except that a
removal takes it back from the document (`Item.Changes`, `Session.Advances`). -/

namespace Formulary

/-! ### What is found -/

/-- The item has not been processed. -/
structure Item.IsNew (item : Item) : Prop where
  stage : item.stage = .unprocessed
  root : item.root = none
  content : item.content = none

/-- The item was found and nothing else. -/
structure Item.IsUnread (item : Item) : Prop extends item.IsNew where
  readings : item.readings = 0

/-- What is found has not been read. -/
theorem isUnread_of_mem_itemsFound {doc : Document} {o : Extraction} {sources : List Source}
    {containers : List NodeId} {found : List Item}
    (hfound : itemsFound doc o sources containers = .ok found) :
    ∀ item ∈ found, item.IsUnread := by
  intro item hitem
  obtain ⟨i, id, container, -, -, source, -, own, hown, hmem⟩ :=
    exists_of_mem_itemsFrom hfound hitem
  rw [Source.itemsIn] at hown
  split at hown
  · obtain ⟨x, -, hx⟩ := mem_of_mapM_eq_ok hown item hmem
    rw [Visit.itemOf] at hx
    split at hx
    · cases hx
    · cases hx
      exact ⟨⟨rfl, rfl, rfl⟩, rfl⟩
  · cases hown
    obtain ⟨spot, -, rfl⟩ := List.mem_map.1 hmem
    exact ⟨⟨rfl, rfl, rfl⟩, rfl⟩

/-- A discovery lists what the sources report, in the order of keys. -/
theorem Session.discover_sorted {s s' : Session} {containers : Option (List NodeId)}
    (hunfinished : .discover ∉ s.finished) (hitems : s.items = [])
    (h : s.discover containers = .ok s') :
    ∃ found report, itemsFound s.document s.extraction s.sources
        ((containers.or s.containers).getD [s.document.body]) = .ok found ∧
      s' = { s with
        items := sortByKey Item.key found
        finished := s.finished ++ [.discover]
        progress := .discovered
        reports := s.reports ++ [report] } := by
  rw [discover, if_neg hunfinished, hitems] at h
  obtain ⟨survey, hsurvey, h⟩ := Reader.exists_ok_of_bind h
  cases h
  obtain ⟨found, hfound, hsorted⟩ := discover_found hsurvey
  exact ⟨found, _, hfound, by rw [← hsorted]; rfl⟩

/-! ### What is read -/

/-- The error of TeX that a failure is. -/
def Failure.tex? : Failure → Option TexError
  | tex e => some e
  | fault _ => none

/-- The item after its source was read, if that was not done yet. -/
def Item.read (doc : Document) (item : Item) : Item := (item.compile doc).1

/-- The error of TeX with which the source of an item cannot be read. -/
def Item.readError? (doc : Document) (item : Item) : Option TexError :=
  (item.compile doc).2.bind Failure.tex?

/-- Reading keeps what can be read, in its order, and records the errors of the others.  It reports
what became of each item. -/
theorem Session.compileFrom_parts {s s' : Session} {items : List Item}
    (h : s.compileFrom items = .ok s') :
    s' = { s with
      items := s.items ++
        (items.filter fun item => (item.readError? s.document).isNone).map (Item.read s.document)
      errors := s.errors ++ items.filterMap fun item =>
        (item.readError? s.document).map fun e => (item.read s.document, e)
      reports := s.reports ++ items.map fun item =>
        .compiled (item.read s.document) (item.readError? s.document) } := by
  induction items generalizing s with
  | nil =>
    obtain rfl : s = s' := Except.ok.inj h
    simp
  | cons first rest ih =>
    rw [compileFrom] at h
    split at h
    · rename_i item hcompile
      have hread : first.readError? s.document = none ∧ first.read s.document = item := by
        rw [Item.readError?, Item.read, hcompile]
        exact ⟨rfl, rfl⟩
      rw [ih h]
      simp [report, hread]
    · rename_i item e hcompile
      have hread : first.readError? s.document = some e ∧ first.read s.document = item := by
        rw [Item.readError?, Item.read, hcompile]
        exact ⟨rfl, rfl⟩
      rw [ih h]
      simp [report, hread]
    · cases h

theorem Session.compile_parts {s s' : Session} (hunfinished : .compile ∉ s.finished)
    (h : s.compile = .ok s') :
    s' = { s with
      items :=
        (s.items.filter fun item => (item.readError? s.document).isNone).map (Item.read s.document)
      errors := s.errors ++ s.items.filterMap fun item =>
        (item.readError? s.document).map fun e => (item.read s.document, e)
      finished := s.finished ++ [.compile]
      progress := .compiled
      reports := s.reports ++ s.items.map fun item =>
        .compiled (item.read s.document) (item.readError? s.document) } := by
  rw [compile, if_neg hunfinished] at h
  obtain ⟨s₁, hcompile, h⟩ := Reader.exists_ok_of_bind h
  cases h
  rw [compileFrom_parts hcompile]
  rfl

/-! ### What becomes of it -/

/-- An item has become another one.  With `back` it may have been taken back out of the document. -/
structure Item.Follows (back : Prop) (a b : Item) : Prop where
  math : b.math = a.math
  source : b.source = a.source
  key : b.key = a.key
  stage : a.stage.rank ≤ b.stage.rank ∨ back ∧ a.stage = .inserted ∧ b.stage = .typeset
  untouched : b.stage = .unprocessed →
    b.root = a.root ∧ b.content = a.content ∧ b.start = a.start ∧ b.stop = a.stop
  readings : a.readings ≤ b.readings

/-- An item has become another one without being read. -/
structure Item.Changes (back : Prop) (a b : Item) : Prop extends a.Follows back b where
  unread : b.readings = a.readings

namespace Item

variable {back : Prop} {doc doc' : Document} {a b c : Item}

theorem Follows.refl (back : Prop) (a : Item) : a.Follows back a :=
  ⟨rfl, rfl, rfl, .inl (Nat.le_refl _), fun _ => ⟨rfl, rfl, rfl, rfl⟩, Nat.le_refl _⟩

theorem Changes.refl (back : Prop) (a : Item) : a.Changes back a := ⟨.refl .., rfl⟩

theorem Follows.of_rank (hmath : b.math = a.math) (hsource : b.source = a.source)
    (hkey : b.key = a.key) (hle : a.stage.rank ≤ b.stage.rank) (hne : b.stage ≠ .unprocessed)
    (hreadings : a.readings ≤ b.readings) : a.Follows back b :=
  ⟨hmath, hsource, hkey, .inl hle, fun h => absurd h hne, hreadings⟩

theorem Changes.of_rank (hmath : b.math = a.math) (hsource : b.source = a.source)
    (hkey : b.key = a.key) (hle : a.stage.rank ≤ b.stage.rank) (hne : b.stage ≠ .unprocessed)
    (hunread : b.readings = a.readings) : a.Changes back b :=
  ⟨.of_rank hmath hsource hkey hle hne (Nat.le_of_eq hunread.symm), hunread⟩

theorem rank_eq_zero_iff {stage : Stage} : stage.rank = 0 ↔ stage = .unprocessed := by
  cases stage <;> decide

theorem Follows.mono {back' : Prop} (h : a.Follows back b) (himp : back → back') :
    a.Follows back' b :=
  ⟨h.math, h.source, h.key, h.stage.imp_right fun ⟨hback, hstages⟩ => ⟨himp hback, hstages⟩,
    h.untouched, h.readings⟩

theorem Follows.of_unprocessed (ha : a.stage = .unprocessed) (h : a.Follows back b) :
    a.Follows False b := by
  refine ⟨h.math, h.source, h.key, .inl ?_, h.untouched, h.readings⟩
  rw [ha]
  exact Nat.zero_le _

theorem Follows.trans (hab : a.Follows False b) (hbc : b.Follows back c) : a.Follows back c where
  math := hbc.math.trans hab.math
  source := hbc.source.trans hab.source
  key := hbc.key.trans hab.key
  stage := by
    have hle : a.stage.rank ≤ b.stage.rank := hab.stage.resolve_right fun h => h.1
    rcases hbc.stage with hle' | ⟨hback, hinserted, htypeset⟩
    · exact .inl (hle.trans hle')
    · by_cases ha : a.stage = .inserted
      · exact .inr ⟨hback, ha, htypeset⟩
      · left
        rw [htypeset]
        cases hstage : a.stage with
        | inserted => exact absurd hstage ha
        | _ => decide
  untouched hc := by
    have hb : b.stage = .unprocessed := by
      rcases hbc.stage with hle | ⟨-, -, htypeset⟩
      · rw [hc] at hle
        exact rank_eq_zero_iff.1 (Nat.le_zero.1 hle)
      · rw [htypeset] at hc
        cases hc
    obtain ⟨hroot, hcontent, hstart, hstop⟩ := hab.untouched hb
    obtain ⟨hroot', hcontent', hstart', hstop'⟩ := hbc.untouched hc
    exact ⟨hroot'.trans hroot, hcontent'.trans hcontent, hstart'.trans hstart, hstop'.trans hstop⟩
  readings := hab.readings.trans hbc.readings

/-- An item that was read has come further, or cannot be read.  Its source was read once more at
most. -/
theorem read_follows (doc : Document) (a : Item) : a.Follows False (a.read doc) ∧
    ((a.readError? doc).isSome → (a.read doc).stage = .unprocessed) ∧
    (a.read doc).readings ≤ a.readings + 1 := by
  rw [read, readError?, compile]
  split
  · rename_i hrank
    have hstage : a.stage = .unprocessed :=
      rank_eq_zero_iff.1 (Nat.le_zero.1 (Nat.le_of_lt_succ hrank))
    split
    · refine ⟨.of_rank rfl rfl rfl ?_ (by simp) (Nat.le_succ _), fun h => ?_, Nat.le_refl _⟩
      · rw [hstage]
        exact Nat.zero_le _
      · cases h
    · exact ⟨⟨rfl, rfl, rfl, .inl (Nat.le_refl _), fun _ => ⟨rfl, rfl, rfl, rfl⟩, Nat.le_succ _⟩,
        fun _ => hstage, Nat.le_refl _⟩
  · exact ⟨.refl .., fun h => (by cases h), Nat.le_succ _⟩

theorem typeset_changes (h : a.typeset doc = .ok (doc', b)) : a.Changes False b := by
  rw [typeset] at h
  split at h
  · rename_i hrank
    split at h
    · cases h
    · cases h
      exact .of_rank rfl rfl rfl (Nat.le_of_lt hrank) (by simp) rfl
  · cases h
    exact .refl ..

/-- The update of an item that is typeset puts it into the document or leaves it alone. -/
theorem update_changes {replaced : List Replacement} (h : a.update doc = .ok (doc', b, replaced)) :
    b = a ∨ b.math = a.math ∧ b.source = a.source ∧ b.key = a.key ∧ b.stage = .inserted ∧
      b.readings = a.readings := by
  rw [update] at h
  split at h
  · cases h
    exact .inl rfl
  · split at h
    · obtain ⟨⟨doc₁, content, replaced₁⟩, -, h⟩ := Reader.exists_ok_of_bind h
      cases h
      exact .inr ⟨rfl, rfl, rfl, rfl, rfl⟩
    · cases h
      exact .inl rfl

theorem removeFromDocument_changes {restore : Bool}
    (h : a.removeFromDocument doc restore = .ok (doc', b)) :
    b.math = a.math ∧ b.source = a.source ∧ b.key = a.key ∧ b.stage = a.stage ∧
      b.readings = a.readings := by
  rw [removeFromDocument] at h
  split at h
  · split at h
    · cases h
    · split at h
      · obtain ⟨⟨doc₁, id, stop⟩, -, h⟩ := Reader.exists_ok_of_bind h
        obtain ⟨doc₂, -, h⟩ := Reader.exists_ok_of_bind h
        obtain ⟨doc₃, -, h⟩ := Reader.exists_ok_of_bind h
        cases h
        exact ⟨rfl, rfl, rfl, rfl, rfl⟩
      · obtain ⟨doc₁, -, h⟩ := Reader.exists_ok_of_bind h
        cases h
        exact ⟨rfl, rfl, rfl, rfl, rfl⟩
  · cases h
    exact ⟨rfl, rfl, rfl, rfl, rfl⟩

theorem setStage_changes {restore : Bool} (ha : a.stage = .inserted)
    (h : a.setStage doc .typeset restore = .ok (doc', b)) : a.Changes True b := by
  rw [setStage, if_pos (by decide)] at h
  obtain ⟨⟨doc₁, c⟩, hremove, h⟩ := Reader.exists_ok_of_bind h
  cases h
  obtain ⟨hmath, hsource, hkey, hstage, hunread⟩ := removeFromDocument_changes hremove
  have hforget : (c.forget .typeset).stage = .typeset := by
    rw [forget, hstage, ha]
    rfl
  refine ⟨⟨hmath, hsource, hkey, .inr ⟨trivial, ha, hforget⟩, fun hne => ?_,
    Nat.le_of_eq hunread.symm⟩, hunread⟩
  rw [hforget] at hne
  cases hne

end Item

namespace Session

variable {doc doc' : Document} {items items' : List Item}

theorem typesetAll_changes (h : typesetAll doc items = .ok (doc', items')) :
    List.Forall₂ (Item.Changes False) items items' := by
  induction items generalizing doc items' with
  | nil =>
    cases h
    exact .nil
  | cons item rest ih =>
    obtain ⟨⟨doc₁, item'⟩, htypeset, h⟩ := Reader.exists_ok_of_bind h
    obtain ⟨⟨doc₂, rest'⟩, hrest, h⟩ := Reader.exists_ok_of_bind h
    cases h
    exact .cons (Item.typeset_changes htypeset) (ih hrest)

theorem removeAll_changes {restore : Bool} (h : removeAll restore doc items = .ok (doc', items')) :
    List.Forall₂ (Item.Changes True) items items' := by
  induction items generalizing doc items' with
  | nil =>
    cases h
    exact .nil
  | cons item rest ih =>
    rw [removeAll] at h
    split at h
    · rename_i hstage
      obtain ⟨⟨doc₁, item'⟩, hitem, h⟩ := Reader.exists_ok_of_bind h
      obtain ⟨⟨doc₂, rest'⟩, hrest, h⟩ := Reader.exists_ok_of_bind h
      cases h
      exact .cons (Item.setStage_changes hstage hitem) (ih hrest)
    · obtain ⟨⟨doc₁, item'⟩, hitem, h⟩ := Reader.exists_ok_of_bind h
      cases hitem
      obtain ⟨⟨doc₂, rest'⟩, hrest, h⟩ := Reader.exists_ok_of_bind h
      cases h
      exact .cons (.refl ..) (ih hrest)

theorem Updating.step_changes {u u' : Updating} {item : Item} (h : u.step item = .ok u') :
    ∃ item' document reports, item.Changes False item' ∧ u'.done = item' :: u.done ∧
      u'.session = { u.session with document, reports } := by
  rw [step] at h
  split at h
  · cases h
    exact ⟨item, _, _, .refl .., rfl, rfl⟩
  · rename_i hrank
    split at h
    · obtain ⟨⟨doc₁, item', replaced⟩, hupdate, h⟩ := Reader.exists_ok_of_bind h
      cases h
      refine ⟨item', doc₁, _, ?_, rfl, rfl⟩
      have hne : item.stage ≠ .unprocessed := by
        rintro heq
        rw [heq] at hrank
        exact hrank (by decide)
      rcases Item.update_changes hupdate with rfl | ⟨hmath, hsource, hkey, hstage, hunread⟩
      · exact .of_rank rfl rfl rfl (Nat.le_refl _) hne rfl
      · refine .of_rank hmath hsource hkey ?_ (by simp [hstage]) hunread
        rw [hstage]
        cases item.stage <;> decide
    · cases h
      exact ⟨item, _, _, .refl .., rfl, rfl⟩

theorem Updating.run_changes {u u' : Updating} (h : u.run items = .ok u') :
    ∃ items' document reports, List.Forall₂ (Item.Changes False) items items' ∧
      u'.done = items'.reverse ++ u.done ∧ u'.session = { u.session with document, reports } := by
  induction items generalizing u with
  | nil =>
    cases h
    exact ⟨[], _, _, .nil, rfl, rfl⟩
  | cons item rest ih =>
    obtain ⟨u₁, hstep, h⟩ := Reader.exists_ok_of_bind h
    obtain ⟨item', doc₁, reports₁, hitem, hdone, hsession⟩ := step_changes hstep
    obtain ⟨rest', doc₂, reports₂, hrest, hdone', hsession'⟩ := ih h
    refine ⟨item' :: rest', doc₂, reports₂, .cons hitem hrest, ?_, ?_⟩
    · rw [hdone', hdone, List.reverse_cons, List.append_assoc, List.singleton_append]
    · rw [hsession', hsession]

/-- The items of a session have changed in place without being read, and no error has come. -/
structure Advances (back : Prop) (s s' : Session) : Prop where
  items : List.Forall₂ (Item.Changes back) s.items s'.items
  errors : s'.errors = s.errors
  finished : ∀ phase, phase = .discover ∨ phase = .compile →
    (phase ∈ s'.finished ↔ phase ∈ s.finished)

theorem Advances.refl (back : Prop) (s : Session) : s.Advances back s :=
  ⟨List.forall₂_same.2 fun item _ => .refl back item, rfl, fun _ _ => Iff.rfl⟩

variable {s s' : Session}

theorem typeset_advances (h : s.typeset = .ok s') : s.Advances False s' := by
  rw [typeset] at h
  split at h
  · cases h
    exact .refl ..
  · obtain ⟨⟨doc, items⟩, htypeset, h⟩ := Reader.exists_ok_of_bind h
    cases h
    refine ⟨typesetAll_changes htypeset, rfl, fun phase hphase => ?_⟩
    rcases hphase with rfl | rfl <;> simp [finish]

theorem update_advances (h : s.update = .ok s') : s.Advances False s' := by
  rw [update] at h
  split at h
  · cases h
    exact .refl ..
  · obtain ⟨u, hrun, h⟩ := Reader.exists_ok_of_bind h
    cases h
    obtain ⟨items, document, reports, hitems, hdone, hsession⟩ := Updating.run_changes hrun
    refine ⟨?_, by rw [hsession]; rfl, fun phase hphase => ?_⟩
    · show List.Forall₂ _ s.items u.done
      rw [hdone, List.append_nil]
      have hreverse := List.rel_reverse hitems
      rwa [List.reverse_reverse] at hreverse
    · rw [hsession]
      rcases hphase with rfl | rfl <;> simp [finish]

theorem removeFromDocument_advances {restore : Bool} (h : s.removeFromDocument restore = .ok s') :
    s.Advances True s' := by
  rw [removeFromDocument] at h
  split at h
  · obtain ⟨⟨doc, items⟩, hremove, h⟩ := Reader.exists_ok_of_bind h
    cases h
    refine ⟨removeAll_changes hremove, rfl, fun phase hphase => ?_⟩
    rcases hphase with rfl | rfl <;> simp
  · cases h
    exact .refl ..

end Session

end Formulary
