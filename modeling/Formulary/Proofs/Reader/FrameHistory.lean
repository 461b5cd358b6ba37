import Formulary.Proofs.Reader.ErrorOffsets
import Formulary.Proofs.Reader.NestedWords

/-! # What happens to a frame while it stands on the stack

A step takes a node in at the top of the stack, opens a frame there, or ends the frame on top, whose
node goes to what is below (`Stack.push_new`, `Reader.pushNodes_top`).  So a frame further down
changes only when what is right above it ends, and then it gains a node that is not one of a bar
(`Reader.step_dwells`).  A bra-ket changes its properties only at a bar that it meets when it is on
top, and ends only at a closing brace (`Stack.Ends`). -/

namespace Formulary

/-! ### Pushing on a sound stack -/

namespace Frame

variable {kinds : FrameKinds} {frame item : Frame}

/-- What an item that is pushed before the text ends does to an open frame. -/
inductive Meets (frame item : Frame) : Frame × Except Failure Verdict → Prop
  | keep (h : item.IsOpen) : Meets frame item (frame, .ok .keep)
  | absorb (h : item.IsFinished) : Meets frame item (frame.take item, .ok .absorb)
  /-- The frame ends.  Only one between fences takes something over. -/
  | close {after : Frame} {f : Formula} (hkind : after.kind = frame.kind)
      (hresult : after.result = .ok (some f))
      (hbraket : frame.isKind "braket" = true → after = frame ∧ item.isKind "close" = true) :
      Meets frame item (after, .ok (.close (whole f)))
  | reject (after : Frame) (failure : Failure) : Meets frame item (after, .error failure)

theorem Receives.meets {outcome : Frame × Except Failure Verdict} (h : Receives frame item outcome) :
    Meets frame item outcome := by
  cases h with
  | keep ho => exact .keep ho
  | absorb hf => exact .absorb hf
  | close ending _ named kind same result =>
    refine .close kind result fun hb => ?_
    rw [isKind, decide_eq_true_eq] at hb
    rw [hb] at ending
    obtain rfl : _ = "close" := by simpa [endings] using ending
    exact ⟨same (by decide), named⟩
  | reject => exact .reject _ _

/-- The frame with further nodes. -/
def gain (frame : Frame) (fs : List Formula) : Frame :=
  { frame with nodes := frame.nodes ++ fs.map some }

@[simp] theorem gain_nil (frame : Frame) : frame.gain [] = frame := by simp [gain]

theorem gain_append (frame : Frame) (fs gs : List Formula) :
    (frame.gain fs).gain gs = frame.gain (fs ++ gs) := by simp [gain]

end Frame

namespace Stack

variable {kinds : FrameKinds} {top : Frame} {below : Stack}

theorem IsSound.push_whole (h : Stack.IsSound (top :: below)) (f : Formula) :
    Stack.push kinds (top :: below) (Frame.whole f) = { stack := top.gain [f] :: below } := by
  have hcheck : top.check kinds (Frame.whole f) = (top.gain [f], .ok .absorb) := by
    cases h with
    | bottom hkind =>
      rw [Frame.check, hkind]
      rfl
    | above ho =>
      have hkind := ho.kind
      simp only [Frame.openKinds, List.mem_cons, List.not_mem_nil, or_false] at hkind
      rw [Frame.check]
      rcases hkind with hf | hf | hf | hf <;> (rw [hf]; rfl)
  rw [Stack.push, hcheck]

theorem IsSound.gain (h : Stack.IsSound (top :: below)) (fs : List Formula) :
    Stack.IsSound (top.gain fs :: below) := by
  have hcomplete (hc : top.IsComplete) : (top.gain fs).IsComplete := by
    intro f hf
    rcases List.mem_append.1 hf with hf | hf
    · exact hc f hf
    · obtain ⟨g, -, rfl⟩ := List.mem_map.1 hf
      rfl
  cases h with
  | bottom hkind hc => exact .bottom hkind (hcomplete hc)
  | above ho hbelow => exact .above ⟨ho.kind, hcomplete ho.complete, ho.counts⟩ hbelow

/-- The top of the stack ends, and its node goes to what is below. -/
inductive Ends (item : Frame) : Stack → Stack → Prop
  | intro {top closed under : Frame} {f : Formula} (below : Stack) (hkind : closed.kind = top.kind)
      (hresult : closed.result = .ok (some f))
      (hbraket : top.isKind "braket" = true → closed = top ∧ item.isKind "close" = true) :
      Ends item (top :: under :: below) (under.gain [f] :: below)

theorem Ends.length_lt {item : Frame} {stack after : Stack} (h : Ends item stack after) :
    after.length < stack.length := by
  cases h with
  | intro => simp

/-- A new item stays on top, or ends what is there. -/
theorem push_new (hk : kinds.IsUsual) {stack after : Stack} (h : stack.IsSound) {item : Frame}
    (hi : item.IsSound) (hnew : ¬item.IsFinished)
    (hpush : (stack.push kinds item).toExcept = .ok after) :
    item.IsOpen ∧ after = item :: stack ∨ Ends item stack after := by
  cases h with
  | @bottom frame hkind hcomplete =>
    have haccepts : frame.Accepts item (frame.check kinds item) :=
      (Frame.check_start_receives hkind hi).accepts
    rw [push] at hpush
    generalize frame.check kinds item = outcome at haccepts hpush
    cases haccepts with
    | keep ho =>
      cases hpush
      exact .inl ⟨ho, rfl⟩
    | absorb hf => exact absurd hf hnew
    | close after result hs hf => exact absurd hkind hs
    | reject after e => cases hpush
  | @above frame below ho hbelow =>
    have hmeets := (ho.check_receives hk hi).meets
    rw [push] at hpush
    generalize frame.check kinds item = outcome at hmeets hpush
    cases hmeets with
    | keep ho =>
      cases hpush
      exact .inl ⟨ho, rfl⟩
    | absorb hf => exact absurd hf hnew
    | @close closed f hkind hresult hbraket =>
      obtain _ | ⟨under, rest⟩ := below
      · cases hbelow
      · dsimp only at hpush
        rw [hbelow.push_whole] at hpush
        cases hpush
        exact .inr (.intro rest hkind hresult hbraket)
    | reject after failure => cases hpush

end Stack

theorem FrameKinds.create_new {kinds : FrameKinds} (hk : kinds.IsUsual) {kind : String}
    {properties : Fields Value} {item : Frame} (h : kinds.create kind properties = .ok item) :
    item.kind.name = kind ∧ item.nodes = [] ∧ item.properties = properties := by
  have hnames : ∀ entry ∈ kinds, entry.2.name = entry.1 := by
    rcases hk with rfl | rfl <;> decide
  rw [create] at h
  split at h
  · cases h
  · rename_i spec hget
    cases h
    exact ⟨hnames _ (Fields.mem_of_get? hget), rfl, rfl⟩

/-! ### Nodes that are no separators -/

/-- A node that stays one in a row and is not marked as a separator. -/
structure Formula.IsUnmarked (f : Formula) : Prop where
  solid : f.IsSolid
  unmarked : f.attributes.get? "braketbar" = none

theorem Formula.isUnmarked_token (kind text : Value) {attributes : Fields Value}
    (h : attributes.get? "braketbar" = none) (texClass : Option TexClass) :
    (Formula.token kind text attributes texClass).IsUnmarked :=
  ⟨by simp [IsSolid, token], h⟩

theorem Formula.isUnmarked_node (kind : Value) (children : List Formula) {attributes : Fields Value}
    (h : attributes.get? "braketbar" = none) (texClass : Option TexClass) :
    (Formula.node kind children attributes texClass).IsUnmarked :=
  ⟨by simp [IsSolid, node, put], h⟩

theorem Action.Makes.isUnmarked {t : Token} {action : Action} {f : Formula} (h : action.Makes t f)
    (hbar : action ≠ .bar) : f.IsUnmarked := by
  cases h with
  | identifier => exact Formula.isUnmarked_token _ _ rfl _
  | number => exact Formula.isUnmarked_token _ _ rfl _
  | other stretchy hs =>
    refine Formula.isUnmarked_token _ _ ?_ _
    rcases hs with rfl | rfl <;> rfl
  | mathChar char kind => exact Formula.isUnmarked_token _ _ rfl _
  | mathOp char style texClass stretchy hs =>
    refine Formula.isUnmarked_token _ _ ?_ _
    rcases hs with rfl | ⟨value, rfl⟩ <;> rfl
  | space width => exact Formula.isUnmarked_token _ _ rfl _
  | linebreak => exact Formula.isUnmarked_token _ _ rfl _
  | plainBar | separator | atom => exact absurd rfl hbar

theorem Frame.isUnmarked_of_result {frame : Frame} (hkind : frame.kind ∈ openKinds) {f : Formula}
    (h : frame.result = .ok (some f)) : f.IsUnmarked := by
  simp only [openKinds, List.mem_cons, List.not_mem_nil, or_false] at hkind
  rcases hkind with hk | hk | hk | hk <;> rw [result, hk] at h
  · obtain ⟨row, -, h⟩ := Reader.exists_ok_of_bind h
    cases h
    exact Formula.isUnmarked_node _ _ rfl _
  · obtain ⟨row, -, h⟩ := Reader.exists_ok_of_bind h
    cases h
    exact Formula.isUnmarked_node _ _ rfl _
  · obtain ⟨row, -, h⟩ := Reader.exists_ok_of_bind h
    cases h
    exact Formula.isUnmarked_node _ _ rfl _
  · obtain ⟨row, -, h⟩ := Reader.exists_ok_of_bind h
    split at h
    · cases h
    · cases h
      exact Formula.isUnmarked_node _ _ rfl _

/-! ### Steps -/

namespace Reader

variable {d : Dialect} {t : Token} {top frame opened : Frame} {below above stack : Stack}
  {rest input : List Token} {n : Nat} {next : Reader}

theorem pushNode_top (hk : d.kinds.IsUsual) (hs : Stack.IsSound (top :: below)) (f : Formula) :
    pushNode d ⟨top :: below, input, n⟩ f = .ok ⟨top.gain [f] :: below, input, n⟩ := by
  have hwrap : d.kinds.wrap (some f) = .ok (Frame.whole f) := Frame.wrap_eq hk _
  rw [pushNode, hwrap]
  dsimp only [bind, Except.bind]
  rw [hs.push_whole]
  rfl

/-- What is on top takes nodes in. -/
theorem pushNodes_top (hk : d.kinds.IsUsual) (hs : Stack.IsSound (top :: below))
    (fs : List Formula) :
    pushNodes d ⟨top :: below, input, n⟩ fs = .ok ⟨top.gain fs :: below, input, n⟩ := by
  induction fs generalizing top with
  | nil => rw [pushNodes, Frame.gain_nil]
  | cons f rest ih =>
    rw [pushNodes, pushNode_top hk hs]
    dsimp only [bind, Except.bind]
    rw [ih (hs.gain [f]), Frame.gain_append, List.singleton_append]

/-- What the meaning `action` of the token `t` can do to a stack. -/
inductive Shifts (d : Dialect) (t : Token) (action : Action) : Stack → Stack → Prop
  | rests (stack : Stack) : Shifts d t action stack stack
  | gains {top : Frame} {below : Stack} {f : Formula} (hf : action.Makes t f) :
      Shifts d t action (top :: below) (top.gain [f] :: below)
  /-- A bar is counted. -/
  | counts {top : Frame} {below : Stack} (count : Int) (fs : List Formula) (hbar : action = .bar) :
      Shifts d t action (top :: below)
        ((top.set "barcount" (.integer count)).gain fs :: below)
  /-- A frame opens. -/
  | opens {stack : Stack} {kind : String} {properties : Fields Value} {item : Frame}
      (hpushes : action.Pushes t kind properties)
      (hcreate : d.kinds.create kind properties = .ok item) :
      Shifts d t action stack ({ item with offset := some (item.offset.getD t.start) } :: stack)
  /-- The frame on top ends. -/
  | ends {stack after : Stack} {kind : String} {properties : Fields Value} {item : Frame}
      (hpushes : action.Pushes t kind properties)
      (hcreate : d.kinds.create kind properties = .ok item)
      (h : Stack.Ends { item with offset := some (item.offset.getD t.start) } stack after) :
      Shifts d t action stack after

theorem pushNew_shifts (hk : d.kinds.IsUsual) (hs : stack.IsSound) {action : Action}
    (ha : action.IsSound) {kind : String} {properties : Fields Value}
    (hpushes : action.Pushes t kind properties)
    (h : pushNew d t.start ⟨stack, input, n⟩ kind properties = .ok next) :
    Shifts d t action stack next.stack := by
  obtain ⟨item, hcreate, h⟩ := exists_ok_of_bind h
  obtain ⟨after, hpush, h⟩ := exists_ok_of_bind h
  cases h
  have hsound := hpushes.yields hk ha
  rw [hcreate] at hsound
  have hnew (offset : Option Int) : ¬Frame.IsFinished { item with offset } := by
    rintro ⟨-, hfirst⟩
    rw [Frame.first, (FrameKinds.create_new hk hcreate).2.1] at hfirst
    cases hfirst
  rcases Stack.push_new hk hs (hsound _) (hnew _) hpush with ⟨-, rfl⟩ | hends
  · exact .opens hpushes hcreate
  · exact .ends hpushes hcreate hends

/-- A step does one of these things to a sound stack. -/
theorem step_shifts (hd : d.IsSound) (hs : stack.IsSound)
    (hstep : Reader.step d t ⟨stack, rest, n⟩ = .ok next) :
    ∃ action, meaning d.vocabulary t = .ok action ∧ Shifts d t action stack next.stack := by
  obtain ⟨action, hmeaning, hstep⟩ := exists_ok_of_bind hstep
  replace hmeaning := eq_ok_of_mapError hmeaning
  refine ⟨action, hmeaning, ?_⟩
  have hsound : action.IsSound := meaning_sound hd.vocabulary hmeaning
  have heffect := perform_effect (d := d) (t := t) (r := ⟨stack, rest, n⟩) action
  rw [hstep] at heffect
  generalize hresult : Except.ok next = result at heffect
  cases heffect with
  | fails | faults | misspelled => cases hresult
  | expands =>
    cases hresult
    exact .rests stack
  | @adds action f input hinput hf =>
    obtain _ | ⟨top, below⟩ := stack
    · cases hs
    · rw [pushNode_top hd.kinds hs] at hresult
      cases hresult
      exact .gains hf
  | @separates top below fs input count hstack hinput hfs =>
    obtain rfl : stack = top :: below := hstack
    rw [pushNodes_top hd.kinds (hs.recount count)] at hresult
    cases hresult
    exact .counts count fs rfl
  | pushes hinput h => exact pushNew_shifts hd.kinds hs hsound h hresult.symm

/-- A frame that stands on the stack, with `above` above it, and that meets no bar: it may gain
nodes that are no separators, or it ends, if it is on top. -/
theorem step_dwells (hd : d.IsSound) (hs : Stack.IsSound (above ++ frame :: below))
    (hbar : above = [] → meaning d.vocabulary t ≠ .ok .bar)
    (hstep : Reader.step d t ⟨above ++ frame :: below, rest, n⟩ = .ok next) :
    (∃ above' gained, next.stack = above' ++ frame.gain gained :: below ∧
      ∀ f ∈ gained, f.IsUnmarked) ∨
    above = [] ∧ ∃ action kind properties item, meaning d.vocabulary t = .ok action ∧
      action.Pushes t kind properties ∧ d.kinds.create kind properties = .ok item ∧
      Stack.Ends { item with offset := some (item.offset.getD t.start) } (frame :: below)
        next.stack := by
  obtain ⟨action, hmeaning, hshifts⟩ := step_shifts hd hs hstep
  have hnone : ∀ f ∈ ([] : List Formula), f.IsUnmarked := fun f hf => absurd hf List.not_mem_nil
  have hframe : frame.gain [] = frame := frame.gain_nil
  generalize hbefore : above ++ frame :: below = before, next.stack = after at hshifts hs
  cases hshifts with
  | rests => exact .inl ⟨above, [], by rw [hframe, hbefore], hnone⟩
  | @gains top rest f hf =>
    obtain _ | ⟨first, above⟩ := above
    · obtain ⟨rfl, rfl⟩ := List.cons.inj hbefore
      have hne : action ≠ .bar := fun h => hbar rfl (h ▸ hmeaning)
      refine .inl ⟨[], [f], rfl, fun g hg => ?_⟩
      rw [List.mem_singleton.1 hg]
      exact hf.isUnmarked hne
    · obtain ⟨rfl, rfl⟩ := List.cons.inj hbefore
      exact .inl ⟨_ :: above, [], by rw [hframe]; rfl, hnone⟩
  | @counts top rest count fs hisBar =>
    obtain _ | ⟨first, above⟩ := above
    · exact absurd (hisBar ▸ hmeaning) (hbar rfl)
    · obtain ⟨rfl, rfl⟩ := List.cons.inj hbefore
      exact .inl ⟨_ :: above, [], by rw [hframe]; rfl, hnone⟩
  | opens => exact .inl ⟨_ :: above, [], by rw [hframe, ← hbefore]; rfl, hnone⟩
  | ends hpushes hcreate hends =>
    obtain _ | ⟨first, above⟩ := above
    · obtain rfl : frame :: below = before := hbefore
      exact .inr ⟨rfl, action, _, _, _, hmeaning, hpushes, hcreate, hends⟩
    · cases hends with
      | @intro top closed under f deeper hkind hresult hbraket =>
        obtain ⟨rfl, hbelow⟩ := List.cons.inj hbefore
        have hopen : first.IsOpen := by
          cases hs with
          | above ho => exact ho
        have hunmarked : f.IsUnmarked :=
          Frame.isUnmarked_of_result (by rw [hkind]; exact hopen.kind) hresult
        obtain _ | ⟨second, above⟩ := above
        · obtain ⟨rfl, rfl⟩ := List.cons.inj hbelow
          refine .inl ⟨[], [f], rfl, fun g hg => ?_⟩
          rw [List.mem_singleton.1 hg]
          exact hunmarked
        · obtain ⟨rfl, rfl⟩ := List.cons.inj hbelow
          exact .inl ⟨_ :: above, [], by rw [hframe]; rfl, hnone⟩

end Reader

end Formulary
