import Formulary.Proofs.Reader.StepEffects

/-! # What reading keeps

A property of items is kept if every item has it that a token of the dialect pushes, if a frame has
it still after taking something in, and if it passes from a frame to what the frame becomes
(`Dialect.Keeps`).  Then all items of the stack have it, whatever is read (`Reader.run_keeps`), and
so has the item that holds the formula in the end (`readTex_keeps`). -/

namespace Formulary

/-- Reading in the dialect keeps the property `I` of items. -/
structure Dialect.Keeps (d : Dialect) (I : Frame → Prop) : Prop where
  /-- A frame and what it becomes have the property if the frame and the item had it. -/
  check : ∀ frame item, I frame → I item → I (frame.check d.kinds item).1 ∧
    ∀ result, (frame.check d.kinds item).2 = .ok (.close result) → I result
  recount : ∀ frame n, I frame → I (frame.set "barcount" (.integer n))
  made : ∀ t action f item, Reader.meaning d.vocabulary t = .ok action → action.Makes t f →
    d.kinds.wrap (some f) = .ok item → I item
  pushed : ∀ t action kind properties item offset, Reader.meaning d.vocabulary t = .ok action →
    action.Pushes t kind properties → d.kinds.create kind properties = .ok item →
    I { item with offset }
  /-- The items at the two ends of a text have the property. -/
  ends : ∀ kind item offset, kind = "start" ∨ kind = "stop" → d.kinds.create kind [] = .ok item →
    I { item with offset }

variable {d : Dialect} {I : Frame → Prop}

theorem Stack.push_keeps (h : d.Keeps I) {stack stack' : Stack} {item : Frame}
    (hstack : ∀ frame ∈ stack, I frame) (hi : I item)
    (hpush : (stack.push d.kinds item).toExcept = .ok stack') : ∀ frame ∈ stack', I frame := by
  induction stack generalizing item with
  | nil =>
    cases hpush
    exact fun frame hframe => List.mem_singleton.1 hframe ▸ hi
  | cons top below ih =>
    obtain ⟨htop, hbelow⟩ := List.forall_mem_cons.1 hstack
    obtain ⟨hafter, hresult⟩ := h.check top item htop hi
    rw [push] at hpush
    split at hpush
    rename_i after verdict hcheck
    rw [hcheck] at hafter hresult
    split at hpush
    · cases hpush
    · cases hpush
      exact List.forall_mem_cons.2 ⟨hi, List.forall_mem_cons.2 ⟨hafter, hbelow⟩⟩
    · cases hpush
      exact List.forall_mem_cons.2 ⟨hafter, hbelow⟩
    · exact ih hbelow (hresult _ rfl) hpush

namespace Reader

variable {r r' : Reader}

/-- All items on the stack have the property. -/
def Has (I : Frame → Prop) (r : Reader) : Prop := ∀ frame ∈ r.stack, I frame

theorem pushNode_keeps (h : d.Keeps I) (hr : r.Has I) {f : Formula}
    (hf : ∀ item, d.kinds.wrap (some f) = .ok item → I item) (hpush : r.pushNode d f = .ok r') :
    r'.Has I := by
  obtain ⟨item, hitem, hpush⟩ := exists_ok_of_bind hpush
  obtain ⟨stack, hstack, hpush⟩ := exists_ok_of_bind hpush
  cases hpush
  exact Stack.push_keeps h hr (hf item hitem) hstack

theorem pushNodes_keeps (h : d.Keeps I) (hr : r.Has I) {fs : List Formula}
    (hfs : ∀ f ∈ fs, ∀ item, d.kinds.wrap (some f) = .ok item → I item)
    (hpush : r.pushNodes d fs = .ok r') : r'.Has I := by
  induction fs generalizing r with
  | nil =>
    cases hpush
    exact hr
  | cons f rest ih =>
    obtain ⟨hf, hrest⟩ := List.forall_mem_cons.1 hfs
    obtain ⟨middle, hmiddle, hpush⟩ := exists_ok_of_bind hpush
    exact ih (pushNode_keeps h hr hf hmiddle) hrest hpush

theorem pushNew_keeps (h : d.Keeps I) (hr : r.Has I) {start : Nat} {kind : String}
    {properties : Fields Value}
    (hi : ∀ item offset, d.kinds.create kind properties = .ok item → I { item with offset })
    (hpush : r.pushNew d start kind properties = .ok r') : r'.Has I := by
  obtain ⟨item, hitem, hpush⟩ := exists_ok_of_bind hpush
  obtain ⟨stack, hstack, hpush⟩ := exists_ok_of_bind hpush
  cases hpush
  exact Stack.push_keeps h hr (hi item _ hitem) hstack

theorem step_keeps (h : d.Keeps I) (hr : r.Has I) {t : Token} (hstep : r.step d t = .ok r') :
    r'.Has I := by
  obtain ⟨action, hmeaning, hstep⟩ := exists_ok_of_bind hstep
  have hmeaning := eq_ok_of_mapError hmeaning
  have heffect := perform_effect (d := d) (t := t) (r := r) action
  generalize r.perform d t action = outcome at heffect hstep
  cases heffect with
  | fails | faults => cases hstep
  | misspelled hfailure => cases hstep
  | expands =>
    cases hstep
    exact hr
  | @adds action f input hinput hf =>
    exact pushNode_keeps (r := ⟨r.stack, input, r.expansions⟩) h hr
      (fun item => h.made t action f item hmeaning hf) hstep
  | @separates top below fs input count hstack hinput hfs =>
    have hr : Has I ⟨top :: below, input, r.expansions⟩ :=
      fun frame hframe => hr frame (hstack ▸ hframe)
    obtain ⟨htop, hbelow⟩ := List.forall_mem_cons.1 hr
    have hcounted : Has I ⟨top.set "barcount" (.integer count) :: below, input, r.expansions⟩ :=
      List.forall_mem_cons.2 ⟨h.recount top count htop, hbelow⟩
    exact pushNodes_keeps h hcounted (fun f hf item => h.made t .bar f item hmeaning (hfs f hf)) hstep
  | @pushes action kind properties input hinput hpushes =>
    exact pushNew_keeps (r := ⟨r.stack, input, r.expansions⟩) h hr
      (fun item offset => h.pushed t action kind properties item offset hmeaning hpushes) hstep

/-- Reading to the end keeps the property. -/
theorem run_keeps (h : d.Keeps I) (hr : r.Has I) (hrun : r.run d = .ok r') : r'.Has I := by
  fun_induction Reader.run d r with
  | case1 =>
    cases hrun
    exact hr
  | case2 => cases hrun
  | case3 stack t rest expansions next hstep _ ih =>
    exact ih (step_keeps (r := ⟨stack, rest, expansions⟩) h hr hstep) hrun

theorem close_keeps (h : d.Keeps I) (hr : r.Has I) {length : Nat}
    (hclose : r.close d length = .ok r') : r'.Has I := by
  rw [Reader.close] at hclose
  split at hclose
  · cases hclose
  · rename_i hpush
    cases hclose
    exact pushNew_keeps h hr (fun item offset => h.ends "stop" item offset (.inr rfl)) hpush

end Reader

/-- A formula that is read from a text stands in an item with the property. -/
theorem readTex_keeps (h : d.Keeps I) {limit : Int} {text : String} {f : Formula}
    (hf : readTex d limit text = .ok (some f)) : ∃ item, I item ∧ some f ∈ item.nodes := by
  obtain ⟨input, -, hf⟩ := Reader.exists_ok_of_bind hf
  obtain ⟨stack, hstack, hf⟩ := Reader.exists_ok_of_bind hf
  obtain ⟨bottom, hbottom, hstack⟩ := Reader.exists_ok_of_bind hstack
  cases hstack
  obtain ⟨r, hrun, hf⟩ := Reader.exists_ok_of_bind hf
  obtain ⟨last, hclose, hf⟩ := Reader.exists_ok_of_bind hf
  have hstart : Reader.Has I ⟨[bottom], input, limit.toNat⟩ := fun frame hframe => by
    rw [List.mem_singleton.1 hframe]
    exact h.ends "start" bottom bottom.offset (.inl rfl) hbottom
  have hlast : last.Has I := Reader.close_keeps h (Reader.run_keeps h hstart hrun) hclose
  rw [Reader.outcome] at hf
  split at hf
  · cases hf
  · rename_i top below hstack
    have hfirst : top.nodes.head?.join = some f := Except.ok.inj hf
    refine ⟨top, hlast top (hstack ▸ List.mem_cons_self ..), ?_⟩
    exact List.mem_of_mem_head? (Option.join_eq_some_iff.1 hfirst)

end Formulary
