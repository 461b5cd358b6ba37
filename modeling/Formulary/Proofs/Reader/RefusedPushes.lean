import Formulary.Proofs.Reader.StackSoundness
import Formulary.Tex.Bench

/-! # Pushes that are refused

An item that is pushed is refused by the frame on top before anything is done to it
(`Frame.check_answers`).  A frame that ends gives way to a finished node, and that is taken up by
whatever stands below (`Frame.check_whole`), so nothing is refused any more once something has been
done.

So a push that fails leaves everything as it was, on a stack (`Stack.push_answers`) and also where
items are shared, put on twice, or taken off and put on again (`Bench.push_answers`).  To push
several items at once is to push one after the other (`InTurn`), up to the first that fails
(`pushEach`): those before it have been pushed, and nothing else has happened. -/

namespace Formulary

/-- An item that may be pushed: it is of a known kind, none of its nodes is missing, and it holds
one if it counts as a finished node. -/
structure Frame.IsUsable (kinds : FrameKinds) (item : Frame) : Prop where
  known : item.kind ∈ kinds.map Prod.snd
  complete : item.IsComplete
  holds : item.isKind "mml" = true → item.nodes ≠ []

/-! ### Checks -/

namespace Frame

variable {kinds : FrameKinds} {frame item : Frame}

theorem isFinal_of_known (hk : kinds.IsUsual) {kind : FrameKind} (h : kind ∈ kinds.map Prod.snd) :
    kind.isFinal = decide (kind.name = "mml") := by
  have hall : ∀ kind ∈ kinds.map Prod.snd, kind.isFinal = decide (kind.name = "mml") := by
    rcases hk with rfl | rfl <;> decide
  exact hall kind h

theorem IsUsable.isFinal_eq (hk : kinds.IsUsual) (h : item.IsUsable kinds) :
    item.kind.isFinal = item.isKind "mml" :=
  isFinal_of_known hk h.known

theorem IsUsable.first_isSome (h : item.IsUsable kinds) (hmml : item.isKind "mml" = true) :
    item.first.isSome := by
  obtain ⟨f, rest, hnodes⟩ := List.exists_cons_of_ne_nil (h.holds hmml)
  obtain ⟨g, rfl⟩ := Option.isSome_iff_exists.1 (h.complete f (hnodes ▸ List.mem_cons_self ..))
  rw [first, hnodes]
  rfl

theorem IsUsable.of_prefix {after : Frame} (h : frame.IsUsable kinds) (hkind : after.kind = frame.kind)
    (hcomplete : after.IsComplete) (hnodes : frame.nodes <+: after.nodes) : after.IsUsable kinds where
  known := hkind ▸ h.known
  complete := hcomplete
  holds hmml hnil := by
    rw [isKind, hkind] at hmml
    rw [hnil, List.prefix_nil] at hnodes
    exact h.holds hmml hnodes

theorem IsUsable.take (h : frame.IsUsable kinds) (hi : item.first.isSome) :
    (frame.take item).IsUsable kinds :=
  h.of_prefix rfl (h.complete.take hi) (List.prefix_append ..)

theorem whole_isUsable (hk : kinds.IsUsual) (f : Formula) : (whole f).IsUsable kinds where
  known := by
    have hknown : finishedKind ∈ kinds.map Prod.snd := by rcases hk with rfl | rfl <;> decide
    exact hknown
  complete := List.forall_mem_singleton.2 rfl
  holds _ := List.cons_ne_nil _ _

theorem checkDefault_whole (frame : Frame) (f : Formula) :
    frame.checkDefault (whole f) = (frame.take (whole f), .ok .absorb) := rfl

/-- A finished node is taken up by every frame. -/
theorem check_whole (kinds : FrameKinds) (frame : Frame) (f : Formula) :
    frame.check kinds (whole f) = (frame.take (whole f), .ok .absorb) := by
  have hdefault := checkDefault_whole frame f
  have hother {name : String} (hname : "mml" ≠ name) : ¬(whole f).isKind name = true := by
    rw [isKind, decide_eq_true_eq]
    exact hname
  rw [check]
  split
  · exact hdefault
  · rw [if_neg (hother (by decide)), hdefault]
  · rw [if_neg (hother (by decide)), hdefault]
  · rw [if_neg (hother (by decide)), hdefault]
  · rw [if_neg (hother (by decide)), hdefault]
  · rw [if_neg (hother (by decide)), if_pos (by rfl)]

theorem start_isUsable (hk : kinds.IsUsual) : IsUsable kinds { kind := FrameKinds.startKind } where
  known := by rcases hk with rfl | rfl <;> decide
  complete := List.forall_mem_nil _
  holds h := absurd h (by decide)

/-- What an item comes to that is pushed on a frame.  Where it is refused, the frame is as it was.
-/
inductive Answers (frame item : Frame) : Frame × Except Failure Verdict → Prop
  | keep : Answers frame item (frame, .ok .keep)
  | absorb (h : item.first.isSome) : Answers frame item (frame.take item, .ok .absorb)
  | close {after : Frame} (f : Formula) (hkind : after.kind = frame.kind)
      (hnodes : after.nodes = frame.nodes) : Answers frame item (after, .ok (.close (whole f)))
  | refuse (e : TexError) : Answers frame item (frame, .error (.tex e))

theorem checkDefault_answers (hk : kinds.IsUsual) (hi : item.IsUsable kinds) :
    Answers frame item (frame.checkDefault item) := by
  rw [checkDefault]
  split
  · split <;> exact .refuse _
  · split
    · rename_i hfinal
      exact .absorb (hi.first_isSome (hi.isFinal_eq hk ▸ hfinal))
    · exact .keep

theorem finish_answers (hk : kinds.IsUsual) {after : Frame} (h : after.IsComplete)
    (hkind : after.kind = frame.kind) (hnodes : after.nodes = frame.nodes) :
    Answers frame item (after, after.finish kinds) := by
  obtain ⟨f, hf⟩ := finish_whole hk h
  rw [hf]
  exact .close f hkind hnodes

/-- A frame answers an item in one of these ways. -/
theorem check_answers (hk : kinds.IsUsual) (h : frame.IsComplete) (hi : item.IsUsable kinds) :
    Answers frame item (frame.check kinds item) := by
  have hdefault : Answers frame item (frame.checkDefault item) := checkDefault_answers hk hi
  have hfinish : Answers frame item (frame, frame.finish kinds) := finish_answers hk h rfl rfl
  rw [check]
  split
  · exact hdefault
  all_goals split
  · exact hfinish
  · exact hdefault
  · exact hfinish
  · exact hdefault
  · -- the one frame that is changed before it ends, and it has all its nodes
    exact finish_answers hk h rfl rfl
  · exact hdefault
  · dsimp only
    split
    · exact hfinish
    · exact .refuse _
  · exact hdefault
  · exact hfinish
  · split
    · rename_i hmml
      exact .absorb (hi.first_isSome hmml)
    · exact hdefault

end Frame

/-! ### One push after the other -/

section

variable {σ ι : Type}

/-- Single steps, one for each of some items in turn, lead from the one state to the other. -/
inductive InTurn (step : σ → ι → σ → Prop) : σ → List ι → σ → Prop
  | refl (s : σ) : InTurn step s [] s
  | cons {s middle s' : σ} {item : ι} {rest : List ι} (h : step s item middle)
      (hrest : InTurn step middle rest s') : InTurn step s (item :: rest) s'

/-- The state after some items were pushed, up to the first that fails. -/
def pushEach (push : σ → ι → σ × Option Failure) (s : σ) : List ι → σ × Option Failure
  | [] => (s, none)
  | item :: rest =>
    match push s item with
    | (s, some failure) => (s, some failure)
    | (s, none) => pushEach push s rest

variable {push : σ → ι → σ × Option Failure} {s s' : σ} {items : List ι} {failure : Failure}

theorem pushEach_eq_none_iff : pushEach push s items = (s', none) ↔
    InTurn (fun s item s' => push s item = (s', none)) s items s' := by
  induction items generalizing s with
  | nil =>
    rw [pushEach, Prod.mk.injEq, and_iff_left rfl]
    exact ⟨fun h => h ▸ .refl s, fun h => by cases h; rfl⟩
  | cons item rest ih =>
    rw [pushEach]
    constructor
    · intro h
      rcases hfirst : push s item with ⟨middle, _ | refused⟩
      · rw [hfirst] at h
        exact .cons hfirst (ih.1 h)
      · rw [hfirst] at h
        cases h
    · rintro (_ | ⟨hfirst, hrest⟩)
      rw [hfirst]
      exact ih.2 hrest

theorem pushEach_eq_some_iff : pushEach push s items = (s', some failure) ↔
    ∃ before bad after middle, items = before ++ bad :: after ∧
      InTurn (fun s item s' => push s item = (s', none)) s before middle ∧
      push middle bad = (s', some failure) := by
  induction items generalizing s with
  | nil => simp [pushEach]
  | cons item rest ih =>
    rw [pushEach]
    constructor
    · intro h
      rcases hfirst : push s item with ⟨middle, _ | refused⟩
      · rw [hfirst] at h
        obtain ⟨before, bad, after, last, rfl, hbefore, hbad⟩ := ih.1 h
        exact ⟨item :: before, bad, after, last, rfl, .cons hfirst hbefore, hbad⟩
      · rw [hfirst] at h
        exact ⟨[], item, rest, s, rfl, .refl s, hfirst.trans h⟩
    · rintro ⟨before, bad, after, last, heq, hbefore, hbad⟩
      cases hbefore with
      | refl =>
        obtain ⟨rfl, rfl⟩ := List.cons.inj heq
        rw [hbad]
      | cons hfirst hrest =>
        obtain ⟨rfl, rfl⟩ := List.cons.inj heq
        rw [hfirst]
        exact ih.2 ⟨_, bad, after, last, rfl, hrest, hbad⟩

end

/-! ### A stack -/

namespace Stack

variable {kinds : FrameKinds} {stack : Stack} {item : Frame} {failure : Failure}

/-- A stack that some pushes and pops lead to, those pushes included that fail. -/
inductive Reached (kinds : FrameKinds) : Stack → Prop
  | initial {stack : Stack} (h : Stack.initial kinds = .ok stack) : Reached kinds stack
  | push {stack : Stack} {item : Frame} (h : Reached kinds stack) (hi : item.IsUsable kinds) :
      Reached kinds (stack.push kinds item).stack
  | pop {top : Frame} {below : Stack} (h : Reached kinds (top :: below)) : Reached kinds below

theorem push_whole (kinds : FrameKinds) (stack : Stack) (f : Formula) :
    stack.push kinds (Frame.whole f) = match stack with
      | [] => { stack := [Frame.whole f] }
      | top :: below => { stack := top.take (Frame.whole f) :: below } := by
  cases stack with
  | nil => rfl
  | cons top below => rw [push, Frame.check_whole]

/-- What a push comes to: it succeeds, or nothing is changed. -/
inductive Answers (kinds : FrameKinds) (stack : Stack) : Pushed → Prop
  | pushed {stack' : Stack} (h : ∀ frame ∈ stack', frame.IsUsable kinds) :
      Answers kinds stack { stack := stack' }
  | refused (e : TexError) : Answers kinds stack { stack, failure := some (.tex e) }

theorem push_answers (hk : kinds.IsUsual) (h : ∀ frame ∈ stack, frame.IsUsable kinds)
    (hi : item.IsUsable kinds) : Answers kinds stack (stack.push kinds item) := by
  cases stack with
  | nil => exact .pushed (List.forall_mem_singleton.2 hi)
  | cons top below =>
    obtain ⟨htop, hbelow⟩ := List.forall_mem_cons.1 h
    have hanswers := Frame.check_answers hk htop.complete hi
    rw [push]
    generalize top.check kinds item = outcome at hanswers
    cases hanswers with
    | keep => exact .pushed (List.forall_mem_cons.2 ⟨hi, h⟩)
    | absorb hfirst => exact .pushed (List.forall_mem_cons.2 ⟨htop.take hfirst, hbelow⟩)
    | refuse e => exact .refused e
    | close f =>
      dsimp only
      rw [push_whole]
      cases below with
      | nil => exact .pushed (List.forall_mem_singleton.2 (Frame.whole_isUsable hk f))
      | cons next below =>
        obtain ⟨hnext, hbelow⟩ := List.forall_mem_cons.1 hbelow
        exact .pushed (List.forall_mem_cons.2 ⟨hnext.take rfl, hbelow⟩)

theorem Answers.usable {pushed : Pushed} (h : Answers kinds stack pushed)
    (hstack : ∀ frame ∈ stack, frame.IsUsable kinds) :
    ∀ frame ∈ pushed.stack, frame.IsUsable kinds := by
  cases h with
  | pushed h => exact h
  | refused => exact hstack

theorem Answers.restores {pushed : Pushed} (h : Answers kinds stack pushed)
    (hfailure : pushed.failure = some failure) : (∃ e, failure = .tex e) ∧ pushed.stack = stack := by
  cases h with
  | pushed => cases hfailure
  | refused e =>
    cases hfailure
    exact ⟨⟨e, rfl⟩, rfl⟩

theorem Reached.usable (hk : kinds.IsUsual) (h : Reached kinds stack) :
    ∀ frame ∈ stack, frame.IsUsable kinds := by
  induction h with
  | initial h =>
    have hstart := Frame.start_isUsable hk
    rcases hk with rfl | rfl <;> cases h <;> exact List.forall_mem_singleton.2 hstart
  | push h hi ih => exact (push_answers hk ih hi).usable ih
  | pop h ih => exact (List.forall_mem_cons.1 ih).2

/-- A push of one item succeeds. -/
def Pushes (kinds : FrameKinds) (stack : Stack) (item : Frame) (stack' : Stack) : Prop :=
  stack.push kinds item = { stack := stack' }

/-- A push with what it leaves and its failure side by side. -/
def pushed (kinds : FrameKinds) (stack : Stack) (item : Frame) : Stack × Option Failure :=
  ((stack.push kinds item).stack, (stack.push kinds item).failure)

theorem pushed_eq_iff {stack' : Stack} {failure : Option Failure} :
    stack.pushed kinds item = (stack', failure) ↔ stack.push kinds item = { stack := stack', failure } := by
  rw [pushed]
  cases stack.push kinds item
  simp

theorem pushAll_eq_iff {items : List Frame} {stack' : Stack} {failure : Option Failure} :
    stack.pushAll kinds items = { stack := stack', failure } ↔
      pushEach (pushed kinds) stack items = (stack', failure) := by
  induction items generalizing stack with
  | nil => simp [pushAll, pushEach]
  | cons item rest ih =>
    rw [pushAll, pushEach, pushed]
    rcases stack.push kinds item with ⟨middle, _ | refused⟩
    · exact ih
    · simp

theorem inTurn_pushed : (fun stack item stack' => pushed kinds stack item = (stack', none)) =
    Pushes kinds := by
  funext stack item stack'
  exact propext pushed_eq_iff

/-- Pushes in turn on a stack that pushes and pops lead to lead to another one. -/
theorem Reached.inTurn {items : List Frame} {stack' : Stack} (h : Reached kinds stack)
    (hi : ∀ item ∈ items, item.IsUsable kinds) (hturn : InTurn (Pushes kinds) stack items stack') :
    Reached kinds stack' := by
  induction hturn with
  | refl => exact h
  | @cons stack middle _ item rest hpush _ ih =>
    obtain ⟨hitem, hrest⟩ := List.forall_mem_cons.1 hi
    have hmiddle := h.push hitem
    rw [hpush] at hmiddle
    exact ih hmiddle hrest

theorem pushAll_succeeds_iff {items : List Frame} {stack' : Stack} :
    stack.pushAll kinds items = { stack := stack' } ↔ InTurn (Pushes kinds) stack items stack' := by
  rw [pushAll_eq_iff, pushEach_eq_none_iff, inTurn_pushed]

/-- A call with several items fails where a single push does, and leaves what those before it have
left. -/
theorem pushAll_fails_iff (hk : kinds.IsUsual) (h : Reached kinds stack) {items : List Frame}
    (hi : ∀ item ∈ items, item.IsUsable kinds) {stack' : Stack} :
    stack.pushAll kinds items = { stack := stack', failure := some failure } ↔
      (∃ e, failure = .tex e) ∧ ∃ before bad after, items = before ++ bad :: after ∧
        InTurn (Pushes kinds) stack before stack' ∧
        stack'.push kinds bad = { stack := stack', failure := some failure } := by
  rw [pushAll_eq_iff, pushEach_eq_some_iff, inTurn_pushed]
  constructor
  · rintro ⟨before, bad, after, middle, rfl, hturn, hbad⟩
    obtain ⟨hbefore, hrest⟩ := List.forall_mem_append.1 hi
    have hanswers := push_answers hk ((h.inTurn hbefore hturn).usable hk)
      (hrest bad (List.mem_cons_self ..))
    rw [pushed_eq_iff] at hbad
    obtain ⟨htex, hrestored⟩ := hanswers.restores (congrArg Pushed.failure hbad)
    rw [hbad] at hrestored
    subst hrestored
    exact ⟨htex, before, bad, after, rfl, hturn, hbad⟩
  · rintro ⟨-, before, bad, after, rfl, hturn, hbad⟩
    exact ⟨before, bad, after, stack', rfl, hturn, pushed_eq_iff.2 hbad⟩

end Stack

/-! ### Shared items -/

namespace Bench

variable {kinds : FrameKinds} {b : Bench} {ready : Ready} {failure : Failure}

/-- A ready item that was made on the bench. -/
def Has (b : Bench) : Ready → Prop
  | .item number => number < b.frames.length
  | _ => True

theorem Has.mono {b' : Bench} (h : b.Has ready) (hle : b.frames.length ≤ b'.frames.length) :
    b'.Has ready := by
  cases ready with
  | item number => exact Nat.lt_of_lt_of_le h hle
  | nothing | node => trivial

/-- A bench that making items, pushes and pops lead to, those pushes included that fail. -/
inductive Reached (kinds : FrameKinds) : Bench → Prop
  | new {b : Bench} (h : ofKinds kinds = .ok b) : Reached kinds b
  | make {b : Bench} {item : Frame} (h : Reached kinds b) (hi : item.IsUsable kinds) :
      Reached kinds (b.add item).2
  | push {b : Bench} {ready : Ready} (h : Reached kinds b) (hr : b.Has ready) :
      Reached kinds (b.push ready).1
  | pop {b b' : Bench} {frame : Frame} (h : Reached kinds b) (hpop : b.pop = .ok (frame, b')) :
      Reached kinds b'

/-- The items on the stack are items of the bench, and all of these are usable. -/
structure IsUsable (kinds : FrameKinds) (b : Bench) : Prop where
  kinds_eq : b.kinds = kinds
  usable : ∀ frame ∈ b.frames, frame.IsUsable kinds
  numbered : ∀ i ∈ b.stack, i < b.frames.length

/-- What a push comes to: it succeeds, or nothing is changed. -/
inductive Answers (kinds : FrameKinds) (b : Bench) : Bench × Option Failure → Prop
  | pushed {b' : Bench} (h : b'.IsUsable kinds) (hle : b.frames.length ≤ b'.frames.length) :
      Answers kinds b (b', none)
  | refused (e : TexError) : Answers kinds b (b, some (.tex e))

theorem Answers.usable {outcome : Bench × Option Failure} (h : Answers kinds b outcome)
    (hb : b.IsUsable kinds) :
    outcome.1.IsUsable kinds ∧ b.frames.length ≤ outcome.1.frames.length := by
  cases h with
  | pushed h hle => exact ⟨h, hle⟩
  | refused => exact ⟨hb, Nat.le_refl _⟩

theorem Answers.restores {outcome : Bench × Option Failure} (h : Answers kinds b outcome)
    (hfailure : outcome.2 = some failure) : (∃ e, failure = .tex e) ∧ outcome.1 = b := by
  cases h with
  | pushed => cases hfailure
  | refused e =>
    cases hfailure
    exact ⟨⟨e, rfl⟩, rfl⟩

theorem IsUsable.add {item : Frame} (h : b.IsUsable kinds) (hi : item.IsUsable kinds) :
    (b.add item).2.IsUsable kinds where
  kinds_eq := h.kinds_eq
  usable := List.forall_mem_append.2 ⟨h.usable, List.forall_mem_singleton.2 hi⟩
  numbered i hmem := by
    have hlt := h.numbered i hmem
    simp only [Bench.add, List.length_append]
    omega

theorem IsUsable.set {item : Frame} (h : b.IsUsable kinds) (n : Nat) (hi : item.IsUsable kinds) :
    IsUsable kinds { b with frames := b.frames.set n item } where
  kinds_eq := h.kinds_eq
  usable frame hframe := (List.mem_or_eq_of_mem_set hframe).elim (h.usable frame) (· ▸ hi)
  numbered i hmem := by
    rw [List.length_set]
    exact h.numbered i hmem

theorem IsUsable.restack {stack : List Nat} (h : b.IsUsable kinds)
    (hstack : ∀ i ∈ stack, i < b.frames.length) : IsUsable kinds { b with stack } :=
  ⟨h.kinds_eq, h.usable, hstack⟩

theorem pushNumbered_eq {n top : Nat} {below : List Nat} {frame item : Frame}
    (hstack : b.stack = top :: below) (htop : b.frames[top]? = some frame)
    (hn : b.frames[n]? = some item) :
    push.pushNumbered b n =
      let changed : Bench := { b with frames := b.frames.set top (frame.check b.kinds item).1 }
      match (frame.check b.kinds item).2 with
      | .error failure => (changed, some failure)
      | .ok .keep => ({ changed with stack := n :: b.stack }, none)
      | .ok .absorb => (changed, none)
      | .ok (.close result) =>
        push.pushNumbered (({ changed with stack := below } : Bench).add result).2 b.frames.length := by
  rw [push.pushNumbered, hstack, pushOn, htop, hn]
  dsimp only
  cases (frame.check b.kinds item).2 with
  | error failure => rfl
  | ok verdict => cases verdict <;> simp [push.pushNumbered, Bench.add]

theorem pushNumbered_whole (h : b.IsUsable kinds) {n : Nat} {f : Formula}
    (hn : b.frames[n]? = some (Frame.whole f)) : ∃ b', push.pushNumbered b n = (b', none) ∧
      b'.IsUsable kinds ∧ b'.frames.length = b.frames.length := by
  cases hstack : b.stack with
  | nil =>
    have hlt := (List.getElem?_eq_some_iff.1 hn).1
    rw [push.pushNumbered, hstack, pushOn]
    exact ⟨_, rfl, h.restack (List.forall_mem_singleton.2 hlt), rfl⟩
  | cons top below =>
    have htop := List.getElem?_eq_getElem (h.numbered top (hstack ▸ List.mem_cons_self ..))
    rw [pushNumbered_eq hstack htop hn, Frame.check_whole]
    exact ⟨_, rfl, h.set top ((h.usable _ (List.mem_of_getElem? htop)).take rfl), List.length_set⟩

theorem pushNumbered_answers (hk : kinds.IsUsual) (h : b.IsUsable kinds) {n : Nat}
    (hn : n < b.frames.length) : Answers kinds b (push.pushNumbered b n) := by
  cases hstack : b.stack with
  | nil =>
    rw [push.pushNumbered, hstack, pushOn]
    exact .pushed (h.restack (List.forall_mem_singleton.2 hn)) (Nat.le_refl _)
  | cons top below =>
    obtain ⟨hlt, hbelow⟩ := List.forall_mem_cons.1 (hstack ▸ h.numbered)
    have htop := h.usable _ (List.getElem_mem hlt)
    have hanswers := Frame.check_answers hk htop.complete (h.usable _ (List.getElem_mem hn))
    rw [← h.kinds_eq] at hanswers
    rw [pushNumbered_eq hstack (List.getElem?_eq_getElem hlt) (List.getElem?_eq_getElem hn)]
    generalize Frame.check b.kinds b.frames[top] b.frames[n] = outcome at hanswers
    cases hanswers with
    | keep =>
      dsimp only
      rw [List.set_getElem_self]
      exact .pushed (h.restack (List.forall_mem_cons.2 ⟨hn, h.numbered⟩)) (Nat.le_refl _)
    | absorb hfirst => exact .pushed (h.set top (htop.take hfirst)) (Nat.le_of_eq List.length_set.symm)
    | refuse e =>
      dsimp only
      rw [List.set_getElem_self]
      exact .refused e
    | @close after f hkind hnodes =>
      have hcomplete : after.IsComplete := by
        rw [Frame.IsComplete, hnodes]
        exact htop.complete
      have hafter := htop.of_prefix hkind hcomplete (hnodes ▸ List.prefix_rfl)
      have hclosed := ((h.set top hafter).restack (by rwa [List.length_set])).add
        (Frame.whole_isUsable hk f)
      have hresult : (b.frames.set top after ++ [Frame.whole f])[b.frames.length]? =
          some (Frame.whole f) := by simp
      obtain ⟨b', hpush, hb', hlength⟩ := pushNumbered_whole hclosed hresult
      dsimp only
      rw [hpush]
      refine .pushed hb' ?_
      rw [hlength]
      simp [Bench.add]

theorem push_answers (hk : kinds.IsUsual) (h : b.IsUsable kinds) (hr : b.Has ready) :
    Answers kinds b (b.push ready) := by
  cases ready with
  | nothing => exact .pushed h (Nat.le_refl _)
  | item number => exact pushNumbered_answers hk h hr
  | node f =>
    have hadded : (b.frames ++ [Frame.whole f])[b.frames.length]? = some (Frame.whole f) := by simp
    have hwhole := Frame.whole_isUsable hk f
    obtain ⟨b', hpush, hb', hlength⟩ := pushNumbered_whole (h.add hwhole) hadded
    have hpushed : b.push (.node f) = (b', none) := by
      rw [Bench.push, h.kinds_eq, Frame.wrap_eq hk]
      exact hpush
    rw [hpushed]
    refine .pushed hb' ?_
    rw [hlength]
    simp [Bench.add]

theorem Reached.usable (hk : kinds.IsUsual) (h : Reached kinds b) : b.IsUsable kinds := by
  induction h with
  | @new b h =>
    have hb : b = { kinds, frames := [{ kind := FrameKinds.startKind }], stack := [0] } := by
      rcases hk with rfl | rfl <;> exact (Except.ok.inj h).symm
    subst hb
    exact ⟨rfl, List.forall_mem_singleton.2 (Frame.start_isUsable hk),
      List.forall_mem_singleton.2 Nat.zero_lt_one⟩
  | make h hi ih => exact ih.add hi
  | push h hr ih => exact ((push_answers hk ih hr).usable ih).1
  | @pop b b' frame h hpop ih =>
    obtain ⟨top, -, hpop⟩ := Reader.exists_ok_of_bind hpop
    cases hpop
    exact ih.restack fun i hi => ih.numbered i (List.mem_of_mem_drop hi)

/-- A push of one item succeeds. -/
def Pushes (b : Bench) (ready : Ready) (b' : Bench) : Prop := b.push ready = (b', none)

theorem pushAll_eq_pushEach (b : Bench) (items : List Ready) :
    b.pushAll items = pushEach push b items := by
  induction items generalizing b with
  | nil => rfl
  | cons item rest ih =>
    rw [pushAll, pushEach]
    rcases b.push item with ⟨b', _ | refused⟩
    · exact ih b'
    · rfl

theorem IsUsable.inTurn (hk : kinds.IsUsual) {items : List Ready} {b' : Bench}
    (h : b.IsUsable kinds) (hi : ∀ ready ∈ items, b.Has ready)
    (hturn : InTurn Pushes b items b') :
    b'.IsUsable kinds ∧ b.frames.length ≤ b'.frames.length := by
  induction hturn with
  | refl => exact ⟨h, Nat.le_refl _⟩
  | @cons b middle _ item rest hpush _ ih =>
    obtain ⟨hitem, hrest⟩ := List.forall_mem_cons.1 hi
    obtain ⟨husable, hle⟩ := (push_answers hk h hitem).usable h
    rw [hpush] at husable hle
    obtain ⟨hend, hle'⟩ := ih husable fun ready hready => (hrest ready hready).mono hle
    exact ⟨hend, Nat.le_trans hle hle'⟩

theorem pushAll_succeeds_iff {items : List Ready} {b' : Bench} :
    b.pushAll items = (b', none) ↔ InTurn Pushes b items b' := by
  rw [pushAll_eq_pushEach]
  exact pushEach_eq_none_iff

/-- A call with several items fails where a single push does, and leaves what those before it have
left. -/
theorem pushAll_fails_iff (hk : kinds.IsUsual) (h : b.IsUsable kinds) {items : List Ready}
    (hi : ∀ ready ∈ items, b.Has ready) {b' : Bench} :
    b.pushAll items = (b', some failure) ↔
      (∃ e, failure = .tex e) ∧ ∃ before bad after, items = before ++ bad :: after ∧
        InTurn Pushes b before b' ∧ b'.push bad = (b', some failure) := by
  rw [pushAll_eq_pushEach, pushEach_eq_some_iff]
  constructor
  · rintro ⟨before, bad, after, middle, rfl, hturn, hbad⟩
    obtain ⟨hbefore, hrest⟩ := List.forall_mem_append.1 hi
    obtain ⟨husable, hle⟩ := h.inTurn hk hbefore hturn
    have hanswers := push_answers hk husable ((hrest bad (List.mem_cons_self ..)).mono hle)
    obtain ⟨htex, hrestored⟩ := hanswers.restores (congrArg Prod.snd hbad)
    rw [hbad] at hrestored
    subst hrestored
    exact ⟨htex, before, bad, after, rfl, hturn, hbad⟩
  · rintro ⟨-, before, bad, after, rfl, hturn, hbad⟩
    exact ⟨before, bad, after, b', rfl, hturn, hbad⟩

end Bench

/-! ### Failures -/

/-- A push fails only with an error of TeX, and then everything is as it was: the items, those on
the stack and those that stand nowhere, with all that they hold, and which of them are on the
stack.  A call with several items succeeds where single pushes of them in turn do, and leads where
these lead.  It fails where one of these pushes fails after those before it, with the failure of
that one, and leaves what the pushes before it have left.  This holds wherever pushes and pops have
led, with items that are shared (`Bench`) and with a stack that holds what is on it (`Stack`). -/
theorem failed_push_restores {kinds : FrameKinds} (hk : kinds.IsUsual) :
    (∀ b : Bench, Bench.Reached kinds b →
      (∀ ready failure, b.Has ready → (b.push ready).2 = some failure →
        (∃ e, failure = .tex e) ∧ (b.push ready).1 = b) ∧
      ∀ items, (∀ ready ∈ items, b.Has ready) →
        (∀ b', b.pushAll items = (b', none) ↔ InTurn Bench.Pushes b items b') ∧
        ∀ b' failure, b.pushAll items = (b', some failure) ↔
          (∃ e, failure = .tex e) ∧ ∃ before bad after, items = before ++ bad :: after ∧
            InTurn Bench.Pushes b before b' ∧ b'.push bad = (b', some failure)) ∧
    ∀ stack : Stack, Stack.Reached kinds stack →
      (∀ item failure, item.IsUsable kinds → (stack.push kinds item).failure = some failure →
        (∃ e, failure = .tex e) ∧ (stack.push kinds item).stack = stack) ∧
      ∀ items, (∀ item ∈ items, item.IsUsable kinds) →
        (∀ stack', stack.pushAll kinds items = { stack := stack' } ↔
          InTurn (Stack.Pushes kinds) stack items stack') ∧
        ∀ stack' failure, stack.pushAll kinds items = { stack := stack', failure := some failure } ↔
          (∃ e, failure = .tex e) ∧ ∃ before bad after, items = before ++ bad :: after ∧
            InTurn (Stack.Pushes kinds) stack before stack' ∧
            stack'.push kinds bad = { stack := stack', failure := some failure } := by
  refine ⟨fun b hb => ⟨fun ready failure hr hfailure => ?_, fun items hi =>
      ⟨fun _ => Bench.pushAll_succeeds_iff, fun _ _ => Bench.pushAll_fails_iff hk (hb.usable hk) hi⟩⟩,
    fun stack hstack => ⟨fun item failure hi hfailure => ?_, fun items hi =>
      ⟨fun _ => Stack.pushAll_succeeds_iff, fun _ _ => Stack.pushAll_fails_iff hk hstack hi⟩⟩⟩
  · exact (Bench.push_answers hk (hb.usable hk) hr).restores hfailure
  · exact (Stack.push_answers hk (hstack.usable hk) hi).restores hfailure

/-- A brace that is refused by a fence, between two nodes: the fence holds the first of them, and
the call has done nothing else. -/
theorem failed_push_restores_brace :
    let x : Formula := .token "mi" "x" [] none
    let start : Frame := { kind := FrameKinds.startKind }
    let fence : Frame := { kind := FrameKinds.leftKind, properties := [("delim", "(")], offset := some 3 }
    let brace : Frame := { kind := { name := "close", isClose := true } }
    let b : Bench := { kinds := .base, frames := [start, fence, brace], stack := [1, 0] }
    let refusal : Failure :=
      .ofCause (.unexpectedClose "left" "close" (some "Extra close brace or missing \\right"))
    (Bench.Reached .base b ∧ (b.push (.item 2)).2 = some refusal ∧ (b.push (.item 2)).1 = b ∧
      ∃ b', b.pushAll [.node x, .item 2, .node x] = (b', some refusal) ∧
        b.push (.node x) = (b', none) ∧ b'.frames[1]? = some { fence with nodes := [some x] }) ∧
    Stack.Reached .base [fence, start] ∧
      Stack.pushAll .base [fence, start] [brace, brace] =
        { stack := [fence, start], failure := some refusal } := by
  intro x start fence brace b refusal
  have hk : FrameKinds.IsUsual .base := .inl rfl
  have hfence : fence.IsUsable .base :=
    ⟨by decide, List.forall_mem_nil _, fun h => absurd h (by decide)⟩
  have hbrace : brace.IsUsable .base :=
    ⟨by decide, List.forall_mem_nil _, fun h => absurd h (by decide)⟩
  have hb : Bench.Reached .base b := by
    have hnew : Bench.Reached .base { kinds := .base, frames := [start], stack := [0] } := .new rfl
    have hhas : Bench.Has { kinds := .base, frames := [start, fence], stack := [0] } (.item 1) :=
      show 1 < 2 by decide
    exact ((hnew.make hfence).push hhas).make hbrace
  have hstack : Stack.Reached .base [fence, start] :=
    Stack.Reached.push (.initial (show Stack.initial .base = .ok [start] from rfl)) hfence
  obtain ⟨hpush, hpushAll⟩ := (failed_push_restores hk).1 b hb
  have hitem : b.Has (.item 2) := show 2 < 3 by decide
  have hitems : ∀ ready ∈ [Ready.node x, .item 2, .node x], b.Has ready := by
    simp [Bench.Has, b]
  have hbraces : ∀ item ∈ [brace, brace], item.IsUsable .base := by
    simpa using hbrace
  have hfails := ((((failed_push_restores hk).2 _ hstack).2 _ hbraces).2 [fence, start] refusal).2
    ⟨⟨_, rfl⟩, [], brace, [brace], rfl, .refl _, rfl⟩
  have hnode : b.push (.node x) = ((b.push (.node x)).1, none) := rfl
  have hfails' := (((hpushAll _ hitems).2 (b.push (.node x)).1 refusal)).2
    ⟨⟨_, rfl⟩, [.node x], .item 2, [.node x], rfl, .cons hnode (.refl _), rfl⟩
  exact ⟨⟨hb, rfl, (hpush _ _ hitem rfl).2, _, hfails', hnode, rfl⟩, hstack, hfails⟩

end Formulary
