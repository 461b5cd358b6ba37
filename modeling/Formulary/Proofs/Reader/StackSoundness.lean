import Formulary.Proofs.Reader.StepEffects

/-! # Reading fails with errors of TeX only

A reader whose vocabulary is sound (`Vocabulary.IsSound`) and which knows the usual kinds of frame
never asks for something that is not there: whatever it reads, it arrives at a formula or at
an error of TeX (`readTex_yields`).

The invariant is that of the stack (`Stack.IsSound`): at the bottom stands the frame of the whole
text, above it stand open frames, no frame has a gap among its nodes, and a bra-ket has the count
and the bound that its bars ask for.  A push keeps it (`Stack.push_yields`), and so does the meaning
of every token (`Reader.perform_yields`). -/

namespace Formulary

/-- A result that is as `p` says, unless an error of TeX stands in its stead. -/
def Yields {α : Type} (p : α → Prop) : Except Failure α → Prop
  | .ok a => p a
  | .error (.tex _) => True
  | .error (.fault _) => False

namespace Yields

variable {α β : Type} {p : α → Prop} {q : β → Prop}

theorem bind {x : Except Failure α} {f : α → Except Failure β} (hx : Yields p x)
    (hf : ∀ a, p a → Yields q (f a)) : Yields q (x >>= f) := by
  match x, hx with
  | .ok a, hx => exact hf a hx
  | .error (.tex _), _ => trivial

theorem mono {p' : α → Prop} {x : Except Failure α} (hx : Yields p x) (h : ∀ a, p a → p' a) :
    Yields p' x := by
  match x, hx with
  | .ok a, hx => exact h a hx
  | .error (.tex _), _ => trivial

theorem with_eq {x : Except Failure α} (hx : Yields p x) : Yields (fun a => x = .ok a ∧ p a) x := by
  match x, hx with
  | .ok _, hx => exact ⟨rfl, hx⟩
  | .error (.tex _), _ => trivial

theorem mapError_ofCause (x : Except TexCause α) :
    Yields (fun a => x = .ok a) (x.mapError .ofCause) := by
  cases x <;> trivial

theorem mapError_tex (x : Except TexError α) :
    Yields (fun a => x = .ok a) (x.mapError .tex) := by
  cases x <;> trivial

end Yields

/-! ### Sound stacks -/

namespace Frame

/-- No node is missing. -/
def IsComplete (frame : Frame) : Prop := ∀ f ∈ frame.nodes, f.isSome

/-- Bars can be counted in the frame. -/
def Counts (frame : Frame) : Prop :=
  (frame.get "barcount" .absent).count?.isSome ∧
    ∀ n, ((frame.get "barmax" .absent).reached? n).isSome

/-- The kinds of frame that stay open. -/
def openKinds : List FrameKind :=
  [FrameKinds.openKind, FrameKinds.leftKind, FrameKinds.beginKind, FrameKinds.braketKind]

/-- An open frame as it should be. -/
structure IsOpen (frame : Frame) : Prop where
  kind : frame.kind ∈ openKinds
  complete : frame.IsComplete
  counts : frame.kind = FrameKinds.braketKind → frame.Counts

/-- The kind of finished nodes. -/
def finishedKind : FrameKind := { name := "mml", isFinal := true }

/-- The kinds of item that close a frame, the end of the text apart. -/
def closingKinds : List FrameKind :=
  ["close", "right", "end"].map fun name => { name, isClose := true }

/-- A finished node as it should be. -/
structure IsFinished (item : Frame) : Prop where
  kind : item.kind = finishedKind
  first : item.first.isSome

end Frame

/-- What may be pushed before the text ends. -/
inductive Frame.IsSound : Frame → Prop
  | finished {item : Frame} : item.IsFinished → Frame.IsSound item
  | opening {item : Frame} : item.IsOpen → Frame.IsSound item
  | closing {item : Frame} : item.kind ∈ Frame.closingKinds → Frame.IsSound item

/-- A stack as it should be: open frames above that of the whole text. -/
inductive Stack.IsSound : Stack → Prop
  | bottom {frame : Frame} : frame.kind = FrameKinds.startKind → frame.IsComplete →
      Stack.IsSound [frame]
  | above {frame : Frame} {below : Stack} : frame.IsOpen → Stack.IsSound below →
      Stack.IsSound (frame :: below)

/-- The usual kinds, with or without those of bra-kets. -/
def FrameKinds.IsUsual (kinds : FrameKinds) : Prop :=
  kinds = .base ∨ kinds = FrameKinds.register .base FrameKinds.braketKind

namespace Frame

variable {kinds : FrameKinds} {frame item : Frame}

theorem mapM_id_of_isSome {fs : List (Option Formula)} (h : ∀ f ∈ fs, f.isSome) :
    ∃ gs, fs.mapM id = some gs := by
  induction fs with
  | nil => exact ⟨[], rfl⟩
  | cons f rest ih =>
    obtain ⟨g, rfl⟩ := Option.isSome_iff_exists.1 (h _ (List.mem_cons_self ..))
    obtain ⟨gs, hgs⟩ := ih fun g hg => h g (List.mem_cons_of_mem _ hg)
    exact ⟨g :: gs, by simp [hgs]⟩

theorem grouped_yields (h : frame.IsComplete) : ∃ row, frame.grouped = .ok row := by
  obtain ⟨gs, hgs⟩ := mapM_id_of_isSome h
  exact ⟨.inferredRow gs, by simp [grouped, formulas, hgs, Except.map]⟩

theorem row_yields (h : frame.IsComplete) : ∃ row, frame.row = .ok (some row) := by
  obtain ⟨row, hrow⟩ := grouped_yields h
  unfold Frame.row
  split
  · rename_i f hf
    obtain ⟨g, rfl⟩ := Option.isSome_iff_exists.1 (h f (by simp [hf]))
    exact ⟨g, rfl⟩
  · exact ⟨row, by simp [hrow, Except.map]⟩

theorem result_yields (h : frame.IsComplete) : ∃ f, frame.result = .ok (some f) := by
  obtain ⟨row, hrow⟩ := grouped_yields h
  obtain ⟨one, hone⟩ := row_yields h
  unfold Frame.result
  split
  · exact ⟨one, hone⟩
  · exact ⟨_, by simp [hrow, bind, Except.bind, pure, Except.pure]; rfl⟩
  · exact ⟨_, by simp [hrow, bind, Except.bind, pure, Except.pure]; rfl⟩
  · exact ⟨_, by simp [hrow, bind, Except.bind, pure, Except.pure]; rfl⟩
  · exact ⟨_, by simp [hone, bind, Except.bind, pure, Except.pure]; rfl⟩

theorem wrap_eq (hk : kinds.IsUsual) (f : Option Formula) :
    kinds.wrap f = .ok { kind := finishedKind, nodes := [f] } := by
  rcases hk with rfl | rfl <;> rfl

/-- A finished item that holds one formula and nothing else. -/
def whole (f : Formula) : Frame := { kind := finishedKind, nodes := [some f] }

theorem finish_of_result (hk : kinds.IsUsual) {f : Formula} (h : frame.result = .ok (some f)) :
    frame.finish kinds = .ok (.close (whole f)) := by
  simp [finish, h, wrap_eq hk, whole, bind, Except.bind, pure, Except.pure]

theorem finish_whole (hk : kinds.IsUsual) (h : frame.IsComplete) :
    ∃ f, frame.finish kinds = .ok (.close (whole f)) :=
  let ⟨f, hf⟩ := result_yields h
  ⟨f, finish_of_result hk hf⟩

theorem finish_eq (hk : kinds.IsUsual) (h : frame.IsComplete) :
    ∃ item : Frame, item.IsFinished ∧ frame.finish kinds = .ok (.close item) :=
  let ⟨f, hf⟩ := finish_whole hk h
  ⟨whole f, ⟨rfl, rfl⟩, hf⟩

theorem IsComplete.take (h : frame.IsComplete) (hi : item.first.isSome) :
    (frame.take item).IsComplete := by
  intro f hf
  rcases List.mem_append.1 hf with hf | hf
  · exact h f hf
  · rw [List.mem_singleton.1 hf]
    exact hi

theorem IsOpen.take (h : frame.IsOpen) (hi : item.first.isSome) : (frame.take item).IsOpen :=
  ⟨h.kind, h.complete.take hi, h.counts⟩

theorem IsOpen.recount (h : frame.IsOpen) (n : Int) :
    (frame.set "barcount" (.integer n)).IsOpen := by
  refine ⟨h.kind, h.complete, fun hb => ?_⟩
  rw [Counts, get, get, Frame.set, Fields.get?_set_self, Fields.get?_set_of_ne _ _ (by decide)]
  exact ⟨rfl, (h.counts hb).2⟩

theorem IsOpen.kind_of_isKind (h : frame.IsOpen) (hb : frame.isKind "braket" = true) :
    frame.kind = FrameKinds.braketKind := by
  have hkind := h.kind
  simp only [openKinds, List.mem_cons, List.not_mem_nil, or_false] at hkind
  rcases hkind with hk | hk | hk | hk
  · exact absurd hb (by rw [isKind, hk]; decide)
  · exact absurd hb (by rw [isKind, hk]; decide)
  · exact absurd hb (by rw [isKind, hk]; decide)
  · exact hk

theorem IsOpen.counts_of_isKind (h : frame.IsOpen) (hb : frame.isKind "braket" = true) :
    frame.Counts := h.counts (h.kind_of_isKind hb)

/-- What a push can come to: the item stays, is taken up, or ends the frame. -/
inductive Accepts (frame item : Frame) : Frame × Except Failure Verdict → Prop
  | keep : item.IsOpen → Accepts frame item (frame, .ok .keep)
  | absorb : item.IsFinished → Accepts frame item (frame.take item, .ok .absorb)
  | close (after result : Frame) : frame.kind ≠ FrameKinds.startKind → result.IsFinished →
      Accepts frame item (after, .ok (.close result))
  | reject (after : Frame) (e : TexError) : Accepts frame item (after, .error (.tex e))

theorem IsOpen.isClose_eq (h : item.IsOpen) : item.kind.isClose = false ∧ item.kind.isFinal = false := by
  have hkind := h.kind
  simp only [openKinds, List.mem_cons, List.not_mem_nil, or_false] at hkind
  rcases hkind with hk | hk | hk | hk <;> (rw [hk]; exact ⟨rfl, rfl⟩)

theorem isClose_of_mem (h : item.kind ∈ closingKinds) : item.kind.isClose = true := by
  simp only [closingKinds, List.map_cons, List.map_nil, List.mem_cons, List.not_mem_nil,
    or_false] at h
  rcases h with hk | hk | hk <;> rw [hk]

theorem IsSound.name (h : item.IsSound) :
    item.isKind "stop" = false ∧ (item.isKind "mml" = true → item.IsFinished) := by
  cases h with
  | finished h => exact ⟨by rw [isKind, h.kind]; rfl, fun _ => h⟩
  | opening h =>
    have hkind := h.kind
    simp only [openKinds, List.mem_cons, List.not_mem_nil, or_false] at hkind
    rcases hkind with hk | hk | hk | hk <;>
      (rw [isKind, isKind, hk]; exact ⟨rfl, fun hn => absurd hn (by decide)⟩)
  | closing h =>
    simp only [closingKinds, List.map_cons, List.map_nil, List.mem_cons, List.not_mem_nil,
      or_false] at h
    rcases h with hk | hk | hk <;>
      (rw [isKind, isKind, hk]; exact ⟨rfl, fun hn => absurd hn (by decide)⟩)

/-- The name of a kind of frame, and that of the items that end it. -/
def endings : List (String × String) :=
  [("open", "close"), ("left", "right"), ("begin", "end"), ("braket", "close")]

theorem IsSound.closing_of_name (hi : item.IsSound) {kind name : String}
    (hname : (kind, name) ∈ endings) (h : item.isKind name = true) : item.kind ∈ closingKinds := by
  simp only [endings, List.mem_cons, Prod.mk.injEq, List.not_mem_nil, or_false] at hname
  cases hi with
  | finished hf =>
    rw [isKind, hf.kind] at h
    rcases hname with ⟨-, rfl⟩ | ⟨-, rfl⟩ | ⟨-, rfl⟩ | ⟨-, rfl⟩ <;> exact absurd h (by decide)
  | opening ho =>
    have hkind := ho.kind
    simp only [openKinds, List.mem_cons, List.not_mem_nil, or_false] at hkind
    rw [isKind] at h
    rcases hname with ⟨-, rfl⟩ | ⟨-, rfl⟩ | ⟨-, rfl⟩ | ⟨-, rfl⟩ <;>
      rcases hkind with hk | hk | hk | hk <;> (rw [hk] at h; exact absurd h (by decide))
  | closing hc => exact hc

/-- What becomes of a frame and an item that is pushed on it before the text ends: the item stays
above the frame, is taken in, ends it, or is refused. -/
inductive Receives (frame item : Frame) : Frame × Except Failure Verdict → Prop
  | keep (h : item.IsOpen) : Receives frame item (frame, .ok .keep)
  | absorb (h : item.IsFinished) : Receives frame item (frame.take item, .ok .absorb)
  /-- The frame ends.  Only one between fences takes something over. -/
  | close {after : Frame} {f : Formula} {name : String} (ending : (frame.kind.name, name) ∈ endings)
      (closing : item.kind ∈ closingKinds) (named : item.isKind name = true)
      (kind : after.kind = frame.kind) (same : name ≠ "right" → after = frame)
      (result : after.result = .ok (some f)) : Receives frame item (after, .ok (.close (whole f)))
  | reject (kind : String) (closer : Value) (wording : Option String) :
      Receives frame item (frame, .error (.ofCause (.unexpectedClose kind closer wording)))

theorem checkDefault_receives (hi : item.IsSound) : Receives frame item (frame.checkDefault item) := by
  have hstop := hi.name.1
  cases hi with
  | finished h =>
    rw [checkDefault, h.kind]
    exact .absorb h
  | opening h =>
    obtain ⟨hc, hf⟩ := h.isClose_eq
    simp only [checkDefault, hc, hf, Bool.false_eq_true, if_false]
    exact .keep h
  | closing h =>
    simp only [checkDefault, isClose_of_mem h, hstop, if_true, Bool.false_eq_true, if_false]
    exact .reject _ _ _

/-- The frame of the whole text has no rule of its own before the text ends. -/
theorem check_start_receives (hkind : frame.kind = FrameKinds.startKind) (hi : item.IsSound) :
    Receives frame item (frame.check kinds item) := by
  have hcheck : frame.check kinds item = frame.checkDefault item := by
    rw [check, hkind]
    simp only [FrameKinds.startKind, hi.name.1, Bool.false_eq_true, if_false]
  rw [hcheck]
  exact checkDefault_receives hi

/-- An item that ends the frame does so, if there is no gap. -/
theorem finish_receives (hk : kinds.IsUsual) (hi : item.IsSound) {name : String}
    (ending : (frame.kind.name, name) ∈ endings) (named : item.isKind name = true) {after : Frame}
    (h : after.IsComplete) (kind : after.kind = frame.kind) (same : name ≠ "right" → after = frame) :
    Receives frame item (after, after.finish kinds) := by
  obtain ⟨f, hf⟩ := result_yields h
  rw [finish_of_result hk hf]
  exact .close ending (hi.closing_of_name ending named) named kind same hf

theorem IsOpen.check_receives (hk : kinds.IsUsual) (h : frame.IsOpen) (hi : item.IsSound) :
    Receives frame item (frame.check kinds item) := by
  have hdefault : Receives frame item (frame.checkDefault item) := checkDefault_receives hi
  have hends {name : String} (hname : (frame.kind.name, name) ∈ endings)
      (named : item.isKind name = true) : Receives frame item (frame, frame.finish kinds) :=
    finish_receives hk hi hname named h.complete rfl fun _ => rfl
  have hkind := h.kind
  simp only [openKinds, List.mem_cons, List.not_mem_nil, or_false] at hkind
  -- each kind has a rule for the item that ends it, and leaves the others to the default
  rcases hkind with hf | hf | hf | hf
  · rw [check, hf]
    simp only [FrameKinds.openKind]
    split
    · rename_i hclose
      exact hends (by rw [hf]; decide) hclose
    · exact hdefault
  · rw [check, hf]
    simp only [FrameKinds.leftKind]
    split
    · rename_i hright
      exact finish_receives hk hi (by rw [hf]; decide) hright h.complete rfl
        fun hne => absurd rfl hne
    · exact hdefault
  · rw [check, hf]
    simp only [FrameKinds.beginKind]
    split
    · rename_i hend
      split
      · exact hends (by rw [hf]; decide) hend
      · exact .reject _ _ _
    · exact hdefault
  · rw [check, hf]
    simp only [FrameKinds.braketKind]
    split
    · rename_i hclose
      exact hends (by rw [hf]; decide) hclose
    · split
      · rename_i hm
        exact .absorb (hi.name.2 hm)
      · exact hdefault

theorem Receives.accepts {outcome : Frame × Except Failure Verdict}
    (h : Receives frame item outcome) : Accepts frame item outcome := by
  cases h with
  | keep ho => exact .keep ho
  | absorb hf => exact .absorb hf
  | @close after f name ending =>
    refine .close after (whole f) (fun hstart => ?_) ⟨rfl, rfl⟩
    rw [hstart] at ending
    simp [endings, FrameKinds.startKind] at ending
  | reject => exact .reject _ _

end Frame

/-- The bars may be counted anew in the frame on top. -/
theorem Stack.IsSound.recount {top : Frame} {below : Stack} (h : Stack.IsSound (top :: below))
    (n : Int) : Stack.IsSound (top.set "barcount" (.integer n) :: below) := by
  cases h with
  | bottom hkind hcomplete => exact .bottom hkind hcomplete
  | above ho hbelow => exact .above (ho.recount n) hbelow

/-! ### Pushing -/

theorem Stack.push_yields {kinds : FrameKinds} (hk : kinds.IsUsual) {stack : Stack}
    (h : stack.IsSound) {item : Frame} (hi : item.IsSound) :
    Yields Stack.IsSound (stack.push kinds item).toExcept := by
  induction h generalizing item with
  | @bottom frame hkind hcomplete =>
    have hacc : Frame.Accepts frame item (frame.check kinds item) :=
      (Frame.check_start_receives hkind hi).accepts
    rw [Stack.push]
    generalize frame.check kinds item = outcome at hacc
    cases hacc with
    | keep ho => exact .above ho (.bottom hkind hcomplete)
    | absorb hf => exact .bottom hkind (hcomplete.take hf.first)
    | close after result hs hf => exact absurd hkind hs
    | reject after e => trivial
  | @above frame below ho hbelow ih =>
    have hacc := (ho.check_receives hk hi).accepts
    rw [Stack.push]
    generalize frame.check kinds item = outcome at hacc
    cases hacc with
    | keep hi => exact .above hi (.above ho hbelow)
    | absorb hf => exact .above (ho.take hf.first) hbelow
    | close after result hs hf => exact ih (.finished hf)
    | reject after e => trivial

/-! ### New items -/

/-- An item is sound wherever it was read. -/
def Frame.IsSoundAnywhere (item : Frame) : Prop :=
  ∀ offset : Option Int, Frame.IsSound { item with offset }

theorem Frame.isSoundAnywhere_new {kind : FrameKind} {properties : Fields Value}
    (hkind : kind ∈ Frame.openKinds)
    (hcounts : kind = FrameKinds.braketKind →
      Frame.Counts { kind, properties, openedWith := properties }) :
    Frame.IsSoundAnywhere { kind, properties, openedWith := properties } :=
  fun _ => .opening ⟨hkind, fun _ hf => (List.not_mem_nil hf).elim, hcounts⟩

theorem FrameKinds.create_eq {kinds : FrameKinds} (hk : kinds.IsUsual) {kind : FrameKind}
    (hkind : kind ∈ [openKind, leftKind, beginKind] ++ Frame.closingKinds)
    (properties : Fields Value) :
    kinds.create kind.name properties = .ok { kind, properties, openedWith := properties } := by
  simp only [Frame.closingKinds, List.map_cons, List.map_nil, List.cons_append, List.nil_append,
    List.mem_cons, List.not_mem_nil, or_false] at hkind
  rcases hk with rfl | rfl <;> rcases hkind with rfl | rfl | rfl | rfl | rfl | rfl <;> rfl

theorem FrameKinds.create_opening {kinds : FrameKinds} (hk : kinds.IsUsual) {kind : FrameKind}
    (hkind : kind ∈ [openKind, leftKind, beginKind]) (properties : Fields Value) :
    Yields Frame.IsSoundAnywhere (kinds.create kind.name properties) := by
  rw [create_eq hk (List.mem_append_left _ hkind)]
  refine Frame.isSoundAnywhere_new (List.mem_append_left [braketKind] hkind) fun hb => ?_
  exact absurd (hb ▸ hkind) (by decide)

theorem FrameKinds.create_closing {kinds : FrameKinds} (hk : kinds.IsUsual) {kind : FrameKind}
    (hkind : kind ∈ Frame.closingKinds) (properties : Fields Value) :
    Yields Frame.IsSoundAnywhere (kinds.create kind.name properties) := by
  rw [create_eq hk (List.mem_append_right _ hkind)]
  exact fun _ => .closing hkind

/-- The frame of a bra-ket, which not every reader knows. -/
theorem FrameKinds.create_braket {kinds : FrameKinds} (hk : kinds.IsUsual)
    {limit opener closer stretchy : Value} (hlimit : ∀ n, (limit.reached? n).isSome) :
    Yields Frame.IsSoundAnywhere (kinds.create "braket" [
      ("barmax", limit), ("barcount", .integer 0), ("open", opener), ("close", closer),
      ("stretchy", stretchy)]) := by
  rcases hk with rfl | rfl
  · trivial
  · exact Frame.isSoundAnywhere_new (by decide : braketKind ∈ Frame.openKinds)
      fun _ => ⟨rfl, hlimit⟩

namespace Reader

variable {d : Dialect} {r : Reader}

/-- The stack of a reader is as it should be. -/
def IsSound (r : Reader) : Prop := r.stack.IsSound

theorem pushNode_yields (hk : d.kinds.IsUsual) (hr : r.IsSound) (f : Formula) :
    Yields IsSound (r.pushNode d f) := by
  rw [pushNode, Frame.wrap_eq hk]
  exact (Stack.push_yields hk hr (.finished ⟨rfl, rfl⟩)).bind fun _ hs => hs

theorem pushNodes_yields (hk : d.kinds.IsUsual) (hr : r.IsSound) (fs : List Formula) :
    Yields IsSound (r.pushNodes d fs) := by
  induction fs generalizing r with
  | nil => exact hr
  | cons f rest ih => exact (pushNode_yields hk hr f).bind fun _ hr => ih hr

theorem pushNew_yields (hk : d.kinds.IsUsual) (hr : r.IsSound) (offset : Nat) {kind : String}
    {properties : Fields Value}
    (h : Yields Frame.IsSoundAnywhere (d.kinds.create kind properties)) :
    Yields IsSound (r.pushNew d offset kind properties) :=
  h.bind fun _ hi => (Stack.push_yields hk hr (hi _)).bind fun _ hs => hs

end Reader

/-! ### Sound vocabularies -/

/-- A meaning whose details suit it, as far as reading looks at them. -/
def Action.IsSound : Action → Prop
  | .template text arity => text.text?.isSome ∧ (arity.getD (.integer 0)).count?.isSome
  | .braket _ _ _ limit => limit = .infinite ∨ limit.count?.isSome
  | .misused _ _ => False
  | _ => True

instance : DecidablePred Action.IsSound := fun action =>
  match action with
  | .template _ _ => inferInstanceAs (Decidable (_ ∧ _))
  | .braket _ _ _ _ => inferInstanceAs (Decidable (_ ∨ _))
  | .misused _ _ => inferInstanceAs (Decidable False)
  | .identifier | .number | .other | .openGroup | .closeGroup | .mathChar _ _ | .mathOp _ _ | .left
  | .right | .begin | .finish | .space _ | .linebreak | .illegalParameter | .bar =>
    inferInstanceAs (Decidable True)

theorem Value.reached?_isSome {limit : Value} (h : limit = .infinite ∨ limit.count?.isSome)
    (n : Int) : (limit.reached? n).isSome := by
  rcases h with rfl | h
  · rfl
  · cases limit <;> simp_all [Value.reached?, Value.count?]

/-- Every meaning in the vocabulary is sound. -/
def Vocabulary.IsSound (vocabulary : Vocabulary) : Prop :=
  ∀ lexicon ∈ vocabulary, ∀ entry ∈ lexicon.entries, entry.2.IsSound

/-- A dialect with a sound vocabulary and the usual kinds of frame. -/
structure Dialect.IsSound (d : Dialect) : Prop where
  vocabulary : d.vocabulary.IsSound
  kinds : d.kinds.IsUsual

namespace Reader

variable {d : Dialect} {r : Reader}

theorem meaning_sound (h : d.vocabulary.IsSound) {t : Token} {action : Action}
    (hm : meaning d.vocabulary t = .ok action) : action.IsSound :=
  meaning_keeps h (by decide) hm

theorem separate_yields (hk : d.kinds.IsUsual) {single : String} {count : Int} {top : Frame}
    {below : Stack} (hr : r.IsSound) (hstack : r.stack = top :: below) :
    Yields IsSound (r.separate d single count top below) := by
  have hcounted : Stack.IsSound (top.set "barcount" (.integer (count + 1)) :: below) :=
    Stack.IsSound.recount (hstack ▸ hr) (count + 1)
  rw [separate]
  split
  rename_i spelling input _
  split
  · exact pushNodes_yields (r := ⟨_, input, r.expansions⟩) hk hcounted _
  · exact pushNode_yields (r := ⟨r.stack, input, r.expansions⟩) hk hr _

theorem bar_yields (hk : d.kinds.IsUsual) {command : String} (hr : r.IsSound) :
    Yields IsSound (r.bar d command) := by
  have hplain := pushNode_yields hk hr (plainBar (if command = "|" then "|" else doubleBar))
  rw [bar]
  split
  · rename_i hstack
    rw [IsSound, hstack] at hr
    cases hr
  · rename_i top below hstack
    split
    · rename_i hbraket
      have hcounts : top.Counts := by
        have hs := hr
        rw [IsSound, hstack] at hs
        cases hs with
        | bottom hkind _ =>
          rw [Frame.isKind, hkind] at hbraket
          exact absurd hbraket (by decide)
        | above ho _ => exact ho.counts_of_isKind hbraket
      obtain ⟨count, hcount⟩ := Option.isSome_iff_exists.1 hcounts.1
      obtain ⟨reached, hreached⟩ := Option.isSome_iff_exists.1 (hcounts.2 count)
      simp only [hcount, hreached]
      cases reached with
      | true => exact hplain
      | false => exact separate_yields hk hr hstack
    · exact hplain

theorem expand_yields {command : Token} {text : Value} (htext : text.text?.isSome) (arity : Nat)
    (hr : r.IsSound) : Yields IsSound (r.expand command text arity) := by
  refine (Yields.mapError_ofCause _).bind fun found _ => ?_
  obtain ⟨given, input⟩ := found
  simp only
  split
  · trivial
  · have htokens : Yields (fun _ => True) (templateTokens text) := by
      cases text with
      | text s => exact (Yields.mapError_tex _).mono fun _ _ => trivial
      | _ => cases htext
    exact htokens.bind fun _ _ => (Yields.mapError_ofCause _).bind fun _ _ => hr

/-- Carrying out a sound meaning keeps the stack sound or ends with an error of TeX. -/
theorem perform_yields (hk : d.kinds.IsUsual) {t : Token} {action : Action} (ha : action.IsSound)
    (hr : r.IsSound) : Yields IsSound (r.perform d t action) := by
  have hopen {kind : FrameKind} (hkind : kind ∈ [FrameKinds.openKind, FrameKinds.leftKind,
      FrameKinds.beginKind]) (input : List Token) (properties : Fields Value) :
      Yields IsSound (pushNew d t.start { r with input } kind.name properties) :=
    pushNew_yields (r := { r with input }) hk hr _ (FrameKinds.create_opening hk hkind _)
  have hclose {kind : FrameKind} (hkind : kind ∈ Frame.closingKinds) (input : List Token)
      (properties : Fields Value) :
      Yields IsSound (pushNew d t.start { r with input } kind.name properties) :=
    pushNew_yields (r := { r with input }) hk hr _ (FrameKinds.create_closing hk hkind _)
  cases action with
  | openGroup => exact hopen (by decide : FrameKinds.openKind ∈ _) r.input _
  | closeGroup => exact hclose (by decide : { name := "close", isClose := true } ∈ _) r.input _
  | left =>
    exact (Yields.mapError_ofCause _).bind fun found _ =>
      hopen (by decide : FrameKinds.leftKind ∈ _) found.2 _
  | right =>
    exact (Yields.mapError_ofCause _).bind fun found _ =>
      hclose (by decide : { name := "right", isClose := true } ∈ _) found.2 _
  | begin =>
    exact (Yields.mapError_ofCause _).bind fun found _ =>
      hopen (by decide : FrameKinds.beginKind ∈ _) found.2 _
  | finish =>
    exact (Yields.mapError_ofCause _).bind fun found _ =>
      hclose (by decide : { name := "end", isClose := true } ∈ _) found.2 _
  | template text arity =>
    obtain ⟨n, hn⟩ := Option.isSome_iff_exists.1 ha.2
    simp only [perform, hn]
    exact expand_yields ha.1 _ hr
  | illegalParameter => trivial
  | braket opener closer stretchy limit =>
    rw [perform]
    split
    · split
      · rename_i next input _ _
        exact pushNew_yields (r := { r with input }) hk hr _
          (FrameKinds.create_braket hk (Value.reached?_isSome ha))
      · trivial
    · trivial
  | bar => exact bar_yields hk hr
  | misused => exact ha.elim
  | _ => exact pushNode_yields hk hr _

theorem step_yields (h : d.IsSound) (t : Token) (hr : r.IsSound) :
    Yields IsSound (r.step d t) :=
  (Yields.mapError_ofCause _).bind fun _ hm =>
    perform_yields h.kinds (meaning_sound h.vocabulary hm) hr

theorem run_yields (h : d.IsSound) (hr : r.IsSound) : Yields IsSound (r.run d) := by
  fun_induction Reader.run d r with
  | case1 => exact hr
  | case2 stack t rest expansions failure hstep =>
    have := step_yields (r := ⟨stack, rest, expansions⟩) h t hr
    rw [hstep] at this
    cases failure with
    | tex e => trivial
    | fault f => exact this.elim
  | case3 stack t rest expansions next hstep _ ih =>
    have := step_yields (r := ⟨stack, rest, expansions⟩) h t hr
    rw [hstep] at this
    exact ih this

end Reader

/-- The item that ends a text. -/
def Frame.endOfText (offset : Option Int) : Frame :=
  { kind := { name := "stop", isClose := true }, offset }

theorem Frame.IsOpen.check_endOfText {kinds : FrameKinds} {frame : Frame} (h : frame.IsOpen)
    (offset : Option Int) :
    frame.check kinds (endOfText offset) = (frame,
      .error (.tex ⟨.unterminated frame.kind.name frame.openedWith, frame.offset⟩)) := by
  have hdefault : frame.checkDefault (endOfText offset) = (frame,
      .error (.tex ⟨.unterminated frame.kind.name frame.openedWith, frame.offset⟩)) := rfl
  have hkind := h.kind
  simp only [openKinds, List.mem_cons, List.not_mem_nil, or_false] at hkind
  rw [← hdefault, check]
  rcases hkind with hk | hk | hk | hk <;> (rw [hk]; rfl)

theorem Stack.push_endOfText {kinds : FrameKinds} (hk : kinds.IsUsual) {stack : Stack}
    (h : stack.IsSound) (offset : Option Int) :
    Yields (fun stack => ∃ f, stack = [Frame.whole f])
      (stack.push kinds (Frame.endOfText offset)).toExcept := by
  cases h with
  | @bottom frame hkind hcomplete =>
    obtain ⟨f, hfinish⟩ := Frame.finish_whole hk hcomplete
    have hcheck : frame.check kinds (Frame.endOfText offset) = (frame, frame.finish kinds) := by
      rw [Frame.check, hkind]
      rfl
    rw [Stack.push, hcheck, hfinish]
    exact ⟨f, rfl⟩
  | @above frame below ho hbelow =>
    rw [Stack.push, ho.check_endOfText]
    trivial

namespace Reader

variable {d : Dialect} {r : Reader}

theorem close_eq (hk : d.kinds.IsUsual) (r : Reader) (length : Nat) :
    r.close d length =
      match (r.stack.push d.kinds (Frame.endOfText (some (length : Int)))).toExcept with
      | .error failure => .error (failure.locate length)
      | .ok stack => .ok { r with stack } := by
  have hcreate : d.kinds.create "stop" [] = .ok (Frame.endOfText none) := by
    rcases hk with hk | hk <;> rw [hk] <;> rfl
  have hpush : r.pushNew d length "stop" [] =
      (r.stack.push d.kinds (Frame.endOfText (some (length : Int)))).toExcept >>=
        fun stack => .ok { r with stack } := by
    rw [pushNew, hcreate]
    rfl
  rw [close, hpush]
  cases (r.stack.push d.kinds (Frame.endOfText (some (length : Int)))).toExcept <;> rfl

theorem close_yields (hk : d.kinds.IsUsual) (hr : r.IsSound) (length : Nat) :
    Yields (fun r' => ∃ f, r'.stack = [Frame.whole f]) (r.close d length) := by
  have hpush := Stack.push_endOfText hk hr (some (length : Int))
  rw [close_eq hk]
  generalize (r.stack.push d.kinds (Frame.endOfText (some (length : Int)))).toExcept = result
    at hpush
  match result, hpush with
  | .error (.tex _), _ => trivial
  | .ok _, hwhole => exact hwhole

theorem outcome_whole {f : Formula} (h : r.stack = [Frame.whole f]) : r.outcome = .ok (some f) := by
  rw [outcome, h]
  rfl

theorem run_input {r' : Reader} (h : r.run d = .ok r') : r'.input = [] := by
  fun_induction Reader.run d r with
  | case1 =>
    cases h
    rfl
  | case2 => cases h
  | case3 stack t rest expansions next hstep _ ih => exact ih h

theorem close_input {r' : Reader} {length : Nat} (h : r.close d length = .ok r') :
    r'.input = r.input := by
  rw [close] at h
  split at h
  · cases h
  · rename_i hpush
    cases h
    exact (pushNew_input hpush).1

/-- Reading a text comes to its end: all of its tokens are consumed, and the one item on the stack
is finished and holds the formula and nothing else. -/
def Finishes (d : Dialect) (limit : Int) (text : String) (f : Formula) : Prop :=
  ∃ (tokens : List Token) (start : Stack) (r last : Reader) (item : Frame),
    tokenize text = .ok tokens ∧ Stack.initial d.kinds = .ok start ∧
    Reader.run d ⟨start, tokens, limit.toNat⟩ = .ok r ∧ r.input = [] ∧
    r.close d text.length = .ok last ∧ last.input = [] ∧
    last.stack = [item] ∧ item.kind.name = "mml" ∧ item.nodes = [some f]

end Reader

/-- Reading a text in a sound dialect comes to its end or to an error of TeX. -/
theorem readTex_finishes {d : Dialect} (h : d.IsSound) (limit : Int) (text : String) :
    Yields (fun f => ∃ g, f = some g ∧ Reader.Finishes d limit text g) (readTex d limit text) := by
  have hinitial : Stack.initial d.kinds = .ok [{ kind := FrameKinds.startKind }] := by
    rcases h.kinds with hk | hk <;> rw [hk] <;> rfl
  refine (Yields.mapError_tex _).bind fun input hinput => ?_
  rw [hinitial]
  have hstart : Reader.IsSound
      ⟨[{ kind := FrameKinds.startKind }], input, limit.toNat⟩ :=
    .bottom rfl fun _ hf => (List.not_mem_nil hf).elim
  refine (Reader.run_yields h hstart).with_eq.bind fun r ⟨hrun, hr⟩ => ?_
  refine (Reader.close_yields h.kinds hr text.length).with_eq.bind fun last ⟨hclose, f, hf⟩ => ?_
  rw [Reader.outcome_whole hf]
  have hr : r.input = [] := Reader.run_input hrun
  have hlast : last.input = [] := (Reader.close_input hclose).trans hr
  exact ⟨f, rfl, input, _, r, last, _, hinput, hinitial, hrun, hr, hclose, hlast, hf, rfl, rfl⟩

/-- Reading a text in a sound dialect gives a formula or an error of TeX. -/
theorem readTex_yields {d : Dialect} (h : d.IsSound) (limit : Int) (text : String) :
    Yields (fun f => f.isSome) (readTex d limit text) :=
  (readTex_finishes h limit text).mono fun _ ⟨_, hf, _⟩ => hf ▸ rfl

/-! ### The dialects of the packages -/

theorem Dialect.base_isSound : Dialect.base.IsSound :=
  ⟨show ∀ lexicon ∈ Vocabulary.base, ∀ entry ∈ lexicon.entries, entry.2.IsSound by decide, .inl rfl⟩

theorem Dialect.IsSound.addLexicon {d : Dialect} (h : d.IsSound) {lexicon : Lexicon}
    (hl : ∀ entry ∈ lexicon.entries, entry.2.IsSound) : (d.addLexicon lexicon).IsSound := by
  refine ⟨fun other ho => ?_, h.kinds⟩
  rcases List.mem_cons.1 ho with rfl | ho
  · exact hl
  · exact h.vocabulary other ho

theorem Dialect.IsSound.addBraket {d : Dialect} (h : d.IsSound) : d.addBraket.IsSound := by
  have hkinds : (d.addKind FrameKinds.braketKind).IsSound := by
    refine ⟨h.vocabulary, .inr ?_⟩
    rcases h.kinds with hk | hk
    · rw [addKind, hk]
    · rw [addKind, hk]
      rfl
  refine Dialect.IsSound.addLexicon (hkinds.addLexicon ?_) ?_
  · show ∀ entry ∈ Vocabulary.braketCommands.entries, entry.2.IsSound
    decide
  · show ∀ entry ∈ Vocabulary.braketCharacters.entries, entry.2.IsSound
    decide

theorem Dialect.usual_isSound : Dialect.usual.IsSound := base_isSound.addBraket

end Formulary
