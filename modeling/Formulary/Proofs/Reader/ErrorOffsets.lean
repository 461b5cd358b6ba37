import Mathlib.Data.List.Forall2
import Formulary.Proofs.Reader.BraceGroups
import Formulary.Proofs.Reader.ExpansionLimit
import Formulary.Proofs.Reader.Outcome

/-! # Where an error of a text is placed

An error that ends the reading of a text has a place, and this is the place of a token of the text.
If a token cannot be carried out, the place is that of the token (`Reader.FailsAt`).  If the text
ends in an open frame, it is that of the token that opened the frame, and the error tells the
properties with which the frame was opened (`Reader.LeavesOpen`).  Either token may stem from a
template; then it stands where the command of the text stands that brought it in, through however
many templates (`Reader.Stems`).

A frame keeps what it was opened with, whatever is put into it (`Frame.Continues`), and a step only
ever opens a frame or settles the stack at one that was open before (`Reader.step_comesTo`).  So
each frame of the stack has a history (`Reader.OpenSince`), by induction on the run. -/

namespace Formulary

/-! ### Errors without a place -/

/-- The error has no place yet, and is not that a frame is still open. -/
structure TexError.IsBare (e : TexError) : Prop where
  offset : e.offset = none
  cause : ∀ kind opened, e.cause ≠ .unterminated kind opened

/-- A result that is as `p` says, unless a failure stands in its stead, which is a bare error if it
is one of TeX. -/
def ComesTo {α : Type} (p : α → Prop) : Except Failure α → Prop
  | .ok a => p a
  | .error (.tex e) => e.IsBare
  | .error (.fault _) => True

namespace ComesTo

variable {α β : Type} {p : α → Prop} {q : β → Prop} {x : Except Failure α}

theorem bind {f : α → Except Failure β} (hx : ComesTo p x) (hf : ∀ a, p a → ComesTo q (f a)) :
    ComesTo q (x >>= f) := by
  match x, hx with
  | .ok a, hx => exact hf a hx
  | .error (.tex _), hx => exact hx
  | .error (.fault _), _ => trivial

theorem mono {p' : α → Prop} (hx : ComesTo p x) (h : ∀ a, p a → p' a) : ComesTo p' x := by
  match x, hx with
  | .ok a, hx => exact h a hx
  | .error (.tex _), hx => exact hx
  | .error (.fault _), _ => trivial

theorem and_yields {p' : α → Prop} (hx : ComesTo p x) (h : Yields p' x) :
    ComesTo (fun a => p' a ∧ p a) x := by
  match x, hx, h with
  | .ok _, hx, h => exact ⟨h, hx⟩
  | .error (.tex _), hx, _ => exact hx

theorem ofCause {cause : TexCause} (h : ∀ kind opened, cause ≠ .unterminated kind opened) :
    ComesTo p (.error (.ofCause cause)) := ⟨rfl, h⟩

end ComesTo

theorem TexCause.IsOfToken.ne_unterminated {cause : TexCause} (h : cause.IsOfToken) (kind : String)
    (opened : Fields Value) : cause ≠ .unterminated kind opened := by
  cases h <;> exact TexCause.noConfusion

/-! ### The stack -/

namespace Frame

/-- The frame was opened as `opened` is. -/
structure Continues (frame opened : Frame) : Prop where
  kind : frame.kind = opened.kind
  openedWith : frame.openedWith = opened.openedWith
  offset : frame.offset = opened.offset

/-- The frame has just been opened where a token stands. -/
structure IsNew (frame : Frame) (start : Nat) : Prop where
  nodes : frame.nodes = []
  openedWith : frame.openedWith = frame.properties
  offset : frame.offset = some (start : Int)

variable {kinds : FrameKinds} {frame item other : Frame}

theorem Continues.refl (frame : Frame) : frame.Continues frame := ⟨rfl, rfl, rfl⟩

theorem Continues.trans {opened : Frame} (h : frame.Continues other) (h' : other.Continues opened) :
    frame.Continues opened :=
  ⟨h.kind.trans h'.kind, h.openedWith.trans h'.openedWith, h.offset.trans h'.offset⟩

theorem continues_take (frame item : Frame) : (frame.take item).Continues frame := ⟨rfl, rfl, rfl⟩

theorem continues_set (frame : Frame) (name : String) (value : Value) :
    (frame.set name value).Continues frame := ⟨rfl, rfl, rfl⟩

theorem IsFinished.not_isOpen (h : item.IsFinished) : ¬item.IsOpen := by
  intro ho
  have hkind := ho.kind
  rw [h.kind] at hkind
  exact absurd hkind (by decide)

/-- If the item is rejected with an error of TeX, the error is bare. -/
def RejectsBarely (outcome : Frame × Except Failure Verdict) : Prop :=
  ComesTo (fun _ => True) outcome.2

theorem Receives.rejectsBarely {outcome : Frame × Except Failure Verdict}
    (h : Receives frame item outcome) : RejectsBarely outcome := by
  cases h with
  | reject => exact ComesTo.ofCause fun _ _ => TexCause.noConfusion
  | _ => trivial

end Frame

/-- The frames on top are closed, down to one that was open before. -/
inductive Stack.Settles : Stack → Stack → Prop
  | intro (closed : Stack) {top top' : Frame} (below : Stack) (h : top'.Continues top) :
      Settles (closed ++ top :: below) (top' :: below)

namespace Stack

variable {kinds : FrameKinds} {stack middle last : Stack}

theorem IsSound.settles_refl (h : stack.IsSound) : stack.Settles stack := by
  cases h with
  | bottom => exact .intro [] [] (.refl _)
  | above => exact .intro [] _ (.refl _)

theorem Settles.trans (h : stack.Settles middle) (h' : middle.Settles last) :
    stack.Settles last := by
  cases h with
  | @intro closed top top' below htop =>
    generalize hmiddle : top' :: below = between at h'
    cases h' with
    | @intro closed' second second' below' hsecond =>
      cases closed' with
      | nil =>
        obtain ⟨rfl, rfl⟩ := List.cons.inj hmiddle
        exact .intro closed _ (hsecond.trans htop)
      | cons first rest =>
        obtain ⟨rfl, rfl⟩ := List.cons.inj hmiddle
        have h := Settles.intro (closed ++ top :: rest) below' hsecond
        rwa [List.append_assoc] at h

/-- A push opens the item or settles the stack. -/
theorem push_comesTo (hk : kinds.IsUsual) (h : stack.IsSound) {item : Frame} (hi : item.IsSound) :
    ComesTo (fun after => stack.Settles after ∨ item.IsOpen ∧ after = item :: stack)
      (stack.push kinds item).toExcept := by
  induction h generalizing item with
  | @bottom frame hkind hcomplete =>
    have hreceives : frame.Receives item (frame.check kinds item) :=
      Frame.check_start_receives hkind hi
    have haccepts := hreceives.accepts
    have hrejects := hreceives.rejectsBarely
    rw [push]
    generalize frame.check kinds item = outcome at haccepts hrejects
    cases haccepts with
    | keep ho => exact .inr ⟨ho, rfl⟩
    | absorb hf => exact .inl (.intro [] [] (Frame.continues_take frame item))
    | close after result hs hf => exact absurd hkind hs
    | reject after e => exact hrejects
  | @above frame below ho hbelow ih =>
    have haccepts := (ho.check_receives hk hi).accepts
    have hrejects := (ho.check_receives hk hi).rejectsBarely
    rw [push]
    generalize frame.check kinds item = outcome at haccepts hrejects
    cases haccepts with
    | keep ho => exact .inr ⟨ho, rfl⟩
    | absorb hf => exact .inl (.intro [] _ (Frame.continues_take frame item))
    | close after result hs hf =>
      -- The result is finished, so what is below takes it up.
      refine (ih (.finished hf)).mono fun stack' hstack => .inl ?_
      rcases hstack with hstack | ⟨hopen, -⟩
      · cases hstack with
        | intro closed below' htop => exact .intro (frame :: closed) below' htop
      · exact absurd hopen hf.not_isOpen
    | reject after e => exact hrejects

end Stack

/-! ### Templates of tokens -/

/-- The meaning is no template, or one that can be cut into tokens. -/
def Action.isLexed : Action → Bool
  | .template (.text s) _ => (tokenize s).isOk
  | _ => true

/-- Every template of the lexicon can be cut into tokens. -/
def Lexicon.IsLexed (lexicon : Lexicon) : Prop := ∀ entry ∈ lexicon.entries, entry.2.isLexed = true

/-- Every template of the vocabulary can be cut into tokens. -/
def Vocabulary.IsLexed (vocabulary : Vocabulary) : Prop := ∀ lexicon ∈ vocabulary, lexicon.IsLexed

theorem Dialect.isLexed_of_packages {names : List String} {d : Dialect}
    (hnames : ofPackages names = .ok d) {lexicons : List Lexicon}
    (hl : ∀ lexicon ∈ lexicons, lexicon.IsLexed) : (d.addLexicons lexicons).vocabulary.IsLexed := by
  have hknown : ∀ lexicon ∈ known, ∀ entry ∈ lexicon.entries, entry.2.isLexed = true := by
    decide +kernel
  exact forall_of_packages (P := fun action => action.isLexed = true) hknown hnames hl

/-! ### Steps -/

theorem FrameKinds.create_isNew {kinds : FrameKinds} {kind : String} {properties : Fields Value}
    {item : Frame} (h : kinds.create kind properties = .ok item) (start : Nat) :
    Frame.IsNew { item with offset := some (item.offset.getD start) } start := by
  rw [create] at h
  split at h <;> cases h
  exact ⟨rfl, rfl, rfl⟩

theorem Action.Pushes.yields {kinds : FrameKinds} (hk : kinds.IsUsual) {t : Token} {action : Action}
    {kind : String} {properties : Fields Value} (h : action.Pushes t kind properties)
    (ha : action.IsSound) : Yields Frame.IsSoundAnywhere (kinds.create kind properties) := by
  cases h with
  | openGroup => exact FrameKinds.create_opening hk (by decide : FrameKinds.openKind ∈ _) _
  | left => exact FrameKinds.create_opening hk (by decide : FrameKinds.leftKind ∈ _) _
  | begin => exact FrameKinds.create_opening hk (by decide : FrameKinds.beginKind ∈ _) _
  | braket => exact FrameKinds.create_braket hk (Value.reached?_isSome ha)
  | closeGroup =>
    exact FrameKinds.create_closing hk (by decide : { name := "close", isClose := true } ∈ _) _
  | right =>
    exact FrameKinds.create_closing hk (by decide : { name := "right", isClose := true } ∈ _) _
  | finish =>
    exact FrameKinds.create_closing hk (by decide : { name := "end", isClose := true } ∈ _) _

namespace Reader

variable {d : Dialect} {t : Token} {r r' : Reader}

/-- A token that the expansion of a template puts where the command `t` stands. -/
def IsBroughtBy (d : Dialect) (t u : Token) : Prop :=
  ∃ text arity template, meaning d.vocabulary t = .ok (.template (.text text) arity) ∧
    tokenize text = .ok template ∧
    ∃ v ∈ template, v.kind ≠ .parameter ∧ u = { v with start := t.start }

/-- What the token `t` does: it opens a frame where it stands or settles the stack, and what is left
to read was left before or is brought in by it. -/
structure Moves (d : Dialect) (t : Token) (r r' : Reader) : Prop where
  stack : r.stack.Settles r'.stack ∨
    ∃ opened : Frame, opened.IsNew t.start ∧ r'.stack = opened :: r.stack
  input : ∀ u ∈ r'.input, u ∈ r.input ∨ IsBroughtBy d t u

theorem pushNode_comesTo (hk : d.kinds.IsUsual) (hr : r.IsSound) (f : Formula) :
    ComesTo (fun r' => r.stack.Settles r'.stack ∧ r'.input = r.input) (r.pushNode d f) := by
  have hitem : Frame.IsFinished { kind := Frame.finishedKind, nodes := [some f] } := ⟨rfl, rfl⟩
  rw [pushNode, Frame.wrap_eq hk]
  refine (Stack.push_comesTo hk hr (.finished hitem)).bind fun stack hstack => ?_
  rcases hstack with hstack | ⟨hopen, -⟩
  · exact ⟨hstack, rfl⟩
  · exact absurd hopen hitem.not_isOpen

theorem pushNodes_comesTo (hk : d.kinds.IsUsual) (hr : r.IsSound) (fs : List Formula) :
    ComesTo (fun r' => r.stack.Settles r'.stack ∧ r'.input = r.input) (r.pushNodes d fs) := by
  induction fs generalizing r with
  | nil => exact ⟨hr.settles_refl, rfl⟩
  | cons f rest ih =>
    have hfirst := (pushNode_comesTo hk hr f).and_yields (pushNode_yields hk hr f)
    refine hfirst.bind fun middle ⟨hmiddle, hstack, hinput⟩ => ?_
    refine (ih hmiddle).mono fun last ⟨hstack', hinput'⟩ => ?_
    exact ⟨hstack.trans hstack', hinput'.trans hinput⟩

theorem pushNew_comesTo (hk : d.kinds.IsUsual) (hr : r.IsSound) (start : Nat) {kind : String}
    {properties : Fields Value}
    (h : Yields Frame.IsSoundAnywhere (d.kinds.create kind properties)) :
    ComesTo (fun r' => (r.stack.Settles r'.stack ∨
      ∃ opened : Frame, opened.IsNew start ∧ r'.stack = opened :: r.stack) ∧ r'.input = r.input)
      (r.pushNew d start kind properties) := by
  rw [pushNew]
  cases hcreate : d.kinds.create kind properties with
  | error failure =>
    rw [FrameKinds.create] at hcreate
    split at hcreate <;> cases hcreate
    exact ComesTo.ofCause fun _ _ => TexCause.noConfusion
  | ok item =>
    rw [hcreate] at h
    have hnew := FrameKinds.create_isNew hcreate start
    refine (Stack.push_comesTo hk hr (h _)).bind fun stack hstack => ?_
    rcases hstack with hstack | ⟨-, hstack⟩
    · exact ⟨.inl hstack, rfl⟩
    · exact ⟨.inr ⟨_, hnew, hstack⟩, rfl⟩

theorem exists_template {text : Value} {arity : Option Value}
    (hsound : (Action.template text arity).IsSound)
    (hlexed : (Action.template text arity).isLexed = true) :
    ∃ s template, text = .text s ∧ tokenize s = .ok template ∧
      templateTokens text = .ok template := by
  cases text with
  | text s =>
    have hok : (tokenize s).isOk = true := hlexed
    cases htokens : tokenize s with
    | error e =>
      rw [htokens] at hok
      cases hok
    | ok template => exact ⟨s, template, rfl, htokens, by rw [templateTokens, htokens]; rfl⟩
  | _ => cases hsound.1

/-- A step of a sound reader moves it, or fails without saying where. -/
theorem step_comesTo (hd : d.IsSound) (hlexed : d.vocabulary.IsLexed) (hr : r.IsSound) (t : Token) :
    ComesTo (Moves d t r) (r.step d t) := by
  rw [step]
  cases hmeaning : meaning d.vocabulary t with
  | error cause => exact ComesTo.ofCause (meaning_cause hmeaning).ne_unterminated
  | ok action =>
    show ComesTo (Moves d t r) (r.perform d t action)
    have hsound : action.IsSound := meaning_sound hd.vocabulary hmeaning
    have htokens : action.isLexed = true :=
      meaning_keeps (P := fun action => action.isLexed = true) hlexed (by decide) hmeaning
    have hkept {input : List Token} (hinput : input ⊆ r.input) :
        ∀ u ∈ input, u ∈ r.input ∨ IsBroughtBy d t u := fun u hu => .inl (hinput hu)
    have heffect := perform_effect (d := d) (t := t) (r := r) action
    generalize r.perform d t action = outcome at heffect
    cases heffect with
    | fails h => exact ComesTo.ofCause h.ne_unterminated
    | faults => trivial
    | misspelled h =>
      obtain ⟨s, template, -, -, htemplate⟩ := exists_template hsound htokens
      rw [htemplate] at h
      cases h
    | expands expansions htemplate hinput =>
      obtain ⟨s, template, rfl, hs, htemplate'⟩ := exists_template hsound htokens
      cases htemplate.symm.trans htemplate'
      refine ⟨.inl hr.settles_refl, fun u hu => (hinput u hu).imp_right fun hu => ?_⟩
      exact ⟨s, _, _, hmeaning, hs, hu⟩
    | @adds action f input hinput hf =>
      refine (pushNode_comesTo (r := ⟨r.stack, input, r.expansions⟩) hd.kinds hr f).mono
        fun r' hpushed => ?_
      obtain ⟨hstack, hrest⟩ := hpushed
      exact ⟨.inl hstack, hrest ▸ hkept hinput⟩
    | @separates top below fs input count hstack hinput hfs =>
      have hsound : Stack.IsSound (top :: below) := hstack ▸ hr
      have hcounted : Stack.Settles r.stack (top.set "barcount" (.integer count) :: below) :=
        hstack ▸ .intro [] below (top.continues_set _ _)
      have hsound : Stack.IsSound (top.set "barcount" (.integer count) :: below) :=
        hsound.recount count
      refine (pushNodes_comesTo (r := ⟨_, input, r.expansions⟩) hd.kinds hsound fs).mono
        fun r' hpushed => ?_
      obtain ⟨hstack', hrest⟩ := hpushed
      exact ⟨.inl (hcounted.trans hstack'), hrest ▸ hkept hinput⟩
    | @pushes action kind properties input hinput h =>
      refine (pushNew_comesTo (r := ⟨r.stack, input, r.expansions⟩) hd.kinds hr t.start
        (h.yields hd.kinds hsound)).mono fun r' hpushed => ?_
      obtain ⟨hstack, hrest⟩ := hpushed
      exact ⟨hstack, hrest ▸ hkept hinput⟩

/-! ### Runs -/

theorem Reaches.head {stack : Stack} {t : Token} {rest : List Token} {expansions : Nat} {next : Reader}
    (hstep : Reader.step d t ⟨stack, rest, expansions⟩ = .ok next) (h : Reaches d next r) :
    Reaches d ⟨stack, t :: rest, expansions⟩ r := by
  induction h with
  | refl => exact .step .refl hstep
  | step _ hstep ih => exact .step ih hstep

theorem reaches_of_run {last : Reader} (h : r.run d = .ok last) : Reaches d r last := by
  fun_induction Reader.run d r with
  | case1 =>
    cases h
    exact .refl
  | case2 => cases h
  | case3 stack t rest expansions next hstep _ ih => exact .head hstep (ih h)

theorem run_template {stack : Stack} {rest given template expansion : List Token}
    {arguments : List (List Token)} {expansions : Nat} {text : String} {arity : Option Value} {n : Int}
    (hmeaning : meaning d.vocabulary t = .ok (.template (.text text) arity))
    (hcount : (arity.getD (.integer 0)).count? = some n)
    (harguments : Reader.arguments t.text n.toNat rest = .ok (arguments, given))
    (htext : tokenize text = .ok template)
    (hexpansion : substitute t arguments template = .ok expansion) :
    run d ⟨stack, t :: rest, expansions + 1⟩ = run d ⟨stack, expansion ++ given, expansions⟩ := by
  have htemplate : templateTokens (.text text) = .ok template := by
    rw [templateTokens, htext]
    rfl
  have hstep : Reader.step d t ⟨stack, rest, expansions + 1⟩ =
      .ok ⟨stack, expansion ++ given, expansions⟩ := by
    have hexpand : expand t (.text text) n.toNat ⟨stack, rest, expansions + 1⟩ =
        .ok ⟨stack, expansion ++ given, expansions⟩ := by
      rw [expand, harguments]
      show (templateTokens (.text text) >>= _) = _
      rw [htemplate]
      show ((substitute t arguments template).mapError Failure.ofCause >>= _) = _
      rw [hexpansion]
      rfl
    rw [step, hmeaning]
    show perform d t (.template (.text text) arity) ⟨stack, rest, expansions + 1⟩ = _
    simp only [perform, hcount]
    exact hexpand
  rw [run_cons, hstep]

theorem exists_of_run_error {failure : Failure} (h : r.run d = .error failure) :
    ∃ stack t rest expansions unplaced, Reaches d r ⟨stack, t :: rest, expansions⟩ ∧
      Reader.step d t ⟨stack, rest, expansions⟩ = .error unplaced ∧
      failure = unplaced.locate t.start := by
  fun_induction Reader.run d r with
  | case1 => cases h
  | case2 stack t rest expansions unplaced hstep =>
    cases h
    exact ⟨stack, t, rest, expansions, unplaced, .refl, hstep, rfl⟩
  | case3 stack t rest expansions next hstep _ ih =>
    obtain ⟨stack', t', rest', expansions', unplaced, hreaches, hfail⟩ := ih h
    exact ⟨stack', t', rest', expansions', unplaced, .head hstep hreaches, hfail⟩

theorem Reaches.isSound (hd : d.IsSound) (h : Reaches d r r') (hr : r.IsSound) : r'.IsSound := by
  induction h with
  | refl => exact hr
  | @step stack t rest expansions next _ hstep ih =>
    have hyields := step_yields (r := ⟨stack, rest, expansions⟩) hd t ih
    rw [hstep] at hyields
    exact hyields

theorem Moves.of_step (hd : d.IsSound) (hlexed : d.vocabulary.IsLexed) {stack : Stack} {t : Token}
    {rest : List Token} {expansions : Nat} {next : Reader} (hr : stack.IsSound)
    (h : Reader.step d t ⟨stack, rest, expansions⟩ = .ok next) :
    Moves d t ⟨stack, rest, expansions⟩ next := by
  have hcomes := step_comesTo (r := ⟨stack, rest, expansions⟩) hd hlexed hr t
  rw [h] at hcomes
  exact hcomes

/-! ### Where tokens come from -/

/-- The token comes from the token `s` of the text: it is that token, or the expansion of a command
that comes from it, and that was read on the way, put it in. -/
inductive Stems (d : Dialect) (start : Reader) (s : Token) : Token → Prop
  | self : Stems d start s s
  | template {stack : Stack} {command u : Token} {rest : List Token} {expansions : Nat}
      (h : Stems d start s command) (hread : Reaches d start ⟨stack, command :: rest, expansions⟩)
      (hu : IsBroughtBy d command u) : Stems d start s u

variable {start : Reader}

/-- A token stands where the token of the text stands that it comes from. -/
theorem Stems.start_eq {s : Token} (h : Stems d start s t) : t.start = s.start := by
  induction h with
  | self => rfl
  | template _ _ hu ih =>
    obtain ⟨_, _, _, _, _, _, _, _, rfl⟩ := hu
    exact ih

/-- Whatever is left to read comes from the text. -/
theorem exists_stems (hd : d.IsSound) (hlexed : d.vocabulary.IsLexed) (hstart : start.IsSound)
    (h : Reaches d start r) : ∀ u ∈ r.input, ∃ s ∈ start.input, Stems d start s u := by
  induction h with
  | refl => exact fun u hu => ⟨u, hu, .self⟩
  | @step stack t rest expansions next hread hstep ih =>
    have hmoves := Moves.of_step hd hlexed (hread.isSound hd hstart) hstep
    intro u hu
    rcases hmoves.input u hu with hu | hu
    · exact ih u (List.mem_cons_of_mem t hu)
    · obtain ⟨s, hs, hstems⟩ := ih t (List.mem_cons_self ..)
      exact ⟨s, hs, .template hstems hread hu⟩

/-! ### Since when a frame is open -/

/-- The frame `opened` is still on the stack, right above `below`, with whatever else there is in
it. -/
def Holds (opened : Frame) (below : Stack) (r : Reader) : Prop :=
  ∃ above frame, r.stack = above ++ frame :: below ∧ frame.Continues opened

/-- The token `t` opened the frame `opened` above `below`, and it has been open since. -/
inductive OpenSince (d : Dialect) (start : Reader) (t : Token) (opened : Frame) (below : Stack) :
    Reader → Prop
  | opens {rest : List Token} {expansions : Nat} {next : Reader}
      (hread : Reaches d start ⟨below, t :: rest, expansions⟩)
      (hstep : Reader.step d t ⟨below, rest, expansions⟩ = .ok next)
      (hnext : next.stack = opened :: below) (hnew : opened.IsNew t.start) :
      OpenSince d start t opened below next
  | later {stack : Stack} {u : Token} {rest : List Token} {expansions : Nat} {next : Reader}
      (h : OpenSince d start t opened below ⟨stack, u :: rest, expansions⟩)
      (hstep : Reader.step d u ⟨stack, rest, expansions⟩ = .ok next)
      (hholds : Holds opened below next) : OpenSince d start t opened below next

theorem OpenSince.opened {opened : Frame} {below : Stack} (h : OpenSince d start t opened below r) :
    opened.IsNew t.start ∧
      ∃ rest expansions, Reaches d start ⟨below, t :: rest, expansions⟩ := by
  induction h with
  | opens hread hstep hnext hnew => exact ⟨hnew, _, _, hread⟩
  | later _ _ _ ih => exact ih

/-- Every frame above that of the whole text has been open since some token opened it. -/
theorem exists_openSince (hd : d.IsSound) (hlexed : d.vocabulary.IsLexed) {bottom : Frame}
    (hstack : start.stack = [bottom]) (hstart : start.IsSound) (h : Reaches d start r) :
    ∀ above frame below, r.stack = above ++ frame :: below → below ≠ [] →
      ∃ t opened, OpenSince d start t opened below r ∧ frame.Continues opened := by
  induction h with
  | refl =>
    intro above frame below heq hbelow
    rw [hstack] at heq
    cases above with
    | nil => exact absurd (List.cons.inj heq).2.symm hbelow
    | cons first rest => exact absurd (List.cons.inj heq).2 (by simp)
  | @step stack t rest expansions next hread hstep ih =>
    intro above frame below heq hbelow
    -- A frame that was there before the step goes on.
    have hlater (above' : Stack) {frame' : Frame} (hbefore : stack = above' ++ frame' :: below)
        (hframe : frame.Continues frame') :
        ∃ t opened, OpenSince d start t opened below next ∧ frame.Continues opened := by
      obtain ⟨t, opened, hsince, hcontinues⟩ := ih above' frame' below hbefore hbelow
      have hframe := hframe.trans hcontinues
      exact ⟨t, opened, .later hsince hstep ⟨above, frame, heq, hframe⟩, hframe⟩
    have hmoves := Moves.of_step hd hlexed (hread.isSound hd hstart) hstep
    rcases hmoves.stack with hsettles | ⟨opened, hnew, hnext⟩
    · generalize hbefore : (⟨stack, rest, expansions⟩ : Reader).stack = before,
        hafter : next.stack = after at hsettles
      cases hsettles with
      | @intro closed top top' below' htop =>
        rw [hafter] at heq
        cases above with
        | nil =>
          obtain ⟨rfl, rfl⟩ := List.cons.inj heq
          exact hlater closed hbefore htop
        | cons first above =>
          obtain ⟨rfl, rfl⟩ := List.cons.inj heq
          refine hlater (closed ++ top :: above) ?_ (.refl frame)
          rw [List.append_assoc]
          exact hbefore
    · rw [hnext] at heq
      cases above with
      | nil =>
        obtain ⟨rfl, rfl⟩ := List.cons.inj heq
        exact ⟨t, _, .opens hread hstep hnext hnew, .refl _⟩
      | cons first above =>
        obtain ⟨rfl, hbefore⟩ := List.cons.inj heq
        exact hlater above hbefore (.refl frame)

/-! ### Errors of a text -/

/-- The reader in front of some tokens, with nothing read. -/
def fresh (tokens : List Token) (limit : Int) : Reader :=
  ⟨[{ kind := FrameKinds.startKind }], tokens, limit.toNat⟩

theorem fresh_isSound (tokens : List Token) (limit : Int) : (fresh tokens limit).IsSound :=
  .bottom rfl fun _ hf => absurd hf List.not_mem_nil

/-- The token `t` is come to, and its meaning cannot be carried out. -/
def FailsAt (d : Dialect) (start : Reader) (t : Token) (cause : TexCause) : Prop :=
  (∀ kind opened, cause ≠ .unterminated kind opened) ∧
  ∃ stack rest expansions, Reaches d start ⟨stack, t :: rest, expansions⟩ ∧
    Reader.step d t ⟨stack, rest, expansions⟩ = .error (.ofCause cause)

/-- All tokens are read, and the frame on top is still the one that the token `t` opened.  The cause
tells the properties that this frame had when it was opened. -/
def LeavesOpen (d : Dialect) (start : Reader) (t : Token) (cause : TexCause) : Prop :=
  ∃ opened below last top, OpenSince d start t opened below last ∧ last.input = [] ∧
    last.stack = top :: below ∧ top.Continues opened ∧
      cause = .unterminated opened.kind.name opened.properties

theorem exists_of_close_error (hk : d.kinds.IsUsual) (hr : r.IsSound) {length : Nat} {e : TexError}
    (h : r.close d length = .error (.tex e)) : ∃ frame below, r.stack = frame :: below ∧
      below ≠ [] ∧
      e = TexError.locate ⟨.unterminated frame.kind.name frame.openedWith, frame.offset⟩ length := by
  rw [close_eq hk] at h
  have hstack : r.stack.IsSound := hr
  generalize r.stack = stack at h hstack
  cases hstack with
  | @bottom frame hkind hcomplete =>
    obtain ⟨f, hfinish⟩ := Frame.finish_whole hk hcomplete
    have hcheck : frame.check d.kinds (Frame.endOfText (some (length : Int))) =
        (frame, frame.finish d.kinds) := by
      rw [Frame.check, hkind]
      rfl
    rw [Stack.push, hcheck, hfinish] at h
    cases h
  | @above frame below ho hbelow =>
    rw [Stack.push, ho.check_endOfText] at h
    cases h
    refine ⟨frame, below, rfl, ?_, rfl⟩
    rintro rfl
    cases hbelow

section

variable {tokens : List Token} {limit : Int} {e : TexError}

/-- An error in a run is placed at a token from which the one stems that cannot be carried out. -/
theorem exists_failsAt (hd : d.IsSound) (hlexed : d.vocabulary.IsLexed)
    (hrun : (fresh tokens limit).run d = .error (.tex e)) :
    ∃ s ∈ tokens, e.offset = some (s.start : Int) ∧
      ∃ t, Stems d (fresh tokens limit) s t ∧ FailsAt d (fresh tokens limit) t e.cause := by
  have hstart := fresh_isSound tokens limit
  obtain ⟨stack, t, rest, expansions, unplaced, hreaches, hstep, hfailure⟩ :=
    exists_of_run_error hrun
  have hr := hreaches.isSound hd hstart
  have hcomes := step_comesTo (r := ⟨stack, rest, expansions⟩) hd hlexed hr t
  rw [hstep] at hcomes
  cases unplaced with
  | fault f => cases hfailure
  | tex bare =>
    obtain ⟨cause, offset⟩ := bare
    obtain ⟨hoffset, hcause⟩ := hcomes
    cases hoffset
    cases hfailure
    obtain ⟨s, hs, hstems⟩ := exists_stems hd hlexed hstart hreaches t (List.mem_cons_self ..)
    refine ⟨s, hs, ?_, t, hstems, hcause, stack, rest, expansions, hreaches, hstep⟩
    exact congrArg (fun n : Nat => some (n : Int)) hstems.start_eq

/-- An error after a run is placed at a token from which the one stems that opened the frame on top.
-/
theorem exists_leavesOpen (hd : d.IsSound) (hlexed : d.vocabulary.IsLexed) {last : Reader}
    (hrun : (fresh tokens limit).run d = .ok last) {length : Nat}
    (hclose : last.close d length = .error (.tex e)) :
    ∃ s ∈ tokens, e.offset = some (s.start : Int) ∧
      ∃ t, Stems d (fresh tokens limit) s t ∧ LeavesOpen d (fresh tokens limit) t e.cause := by
  have hstart := fresh_isSound tokens limit
  have hreaches := reaches_of_run hrun
  obtain ⟨frame, below, hstack, hbelow, rfl⟩ :=
    exists_of_close_error hd.kinds (hreaches.isSound hd hstart) hclose
  obtain ⟨t, opened, hsince, hcontinues⟩ :=
    exists_openSince hd hlexed rfl hstart hreaches [] frame below hstack hbelow
  obtain ⟨hnew, rest, expansions, hread⟩ := hsince.opened
  obtain ⟨s, hs, hstems⟩ := exists_stems hd hlexed hstart hread t (List.mem_cons_self ..)
  refine ⟨s, hs, ?_, t, hstems, opened, below, last, frame, hsince, run_input hrun, hstack,
    hcontinues, ?_⟩
  · rw [← hstems.start_eq, TexError.locate, hcontinues.offset, hnew.offset]
    rfl
  · rw [TexError.locate, hcontinues.kind, hcontinues.openedWith, hnew.openedWith]

end

end Reader

/-- An error that ends the reading of a text is placed at a token of the text.  A token that comes
from this one either cannot be carried out, or it opened the frame in which the text ends, and the
error tells the properties that the frame had then. -/
theorem readTex_error_located {names : List String} {d : Dialect}
    (hnames : Dialect.ofPackages names = .ok d) {lexicons : List Lexicon}
    (hl : ∀ lexicon ∈ lexicons, lexicon.IsOfTemplates)
    (hlexed : ∀ lexicon ∈ lexicons, lexicon.IsLexed) {limit : Int} {text : String}
    {tokens : List Token} (htokens : tokenize text = .ok tokens) {e : TexError}
    (he : readTex (d.addLexicons lexicons) limit text = .error (.tex e)) :
    ∃ s ∈ tokens, e.offset = some (s.start : Int) ∧
      ∃ t, Reader.Stems (d.addLexicons lexicons) (.fresh tokens limit) s t ∧
        (Reader.FailsAt (d.addLexicons lexicons) (.fresh tokens limit) t e.cause ∨
          Reader.LeavesOpen (d.addLexicons lexicons) (.fresh tokens limit) t e.cause) := by
  have hsound := Dialect.isSound_of_packages hnames hl
  have htemplates := Dialect.isLexed_of_packages hnames hlexed
  generalize d.addLexicons lexicons = d at he hsound htemplates
  have hinitial : Stack.initial d.kinds = .ok [{ kind := FrameKinds.startKind }] := by
    rcases hsound.kinds with hk | hk <;> rw [hk] <;> rfl
  rw [readTex, htokens, hinitial] at he
  replace he : ((Reader.fresh tokens limit).run d >>= fun r =>
      r.close d text.length >>= Reader.outcome) = .error (.tex e) := he
  cases hrun : (Reader.fresh tokens limit).run d with
  | error failure =>
    rw [hrun] at he
    cases he
    obtain ⟨s, hs, hoffset, t, hstems, hfails⟩ := Reader.exists_failsAt hsound htemplates hrun
    exact ⟨s, hs, hoffset, t, hstems, .inl hfails⟩
  | ok last =>
    rw [hrun] at he
    replace he : (last.close d text.length >>= Reader.outcome) = .error (.tex e) := he
    cases hclose : last.close d text.length with
    | error failure =>
      rw [hclose] at he
      cases he
      obtain ⟨s, hs, hoffset, t, hstems, hopen⟩ :=
        Reader.exists_leavesOpen hsound htemplates hrun hclose
      exact ⟨s, hs, hoffset, t, hstems, .inr hopen⟩
    | ok closed =>
      rw [hclose] at he
      replace he : closed.outcome = .error (.tex e) := he
      rw [Reader.outcome] at he
      split at he <;> cases he

/-- A template that opens a set, inside another one. -/
def Lexicon.nested : Lexicon where
  category := .command
  entries := [("deep", .template "\\wide" none),
    ("wide", .template "\\Set\x7b#1" (some (.integer 1)))]

theorem readTex_error_located_openSet :
    let d := Dialect.usual.addLexicons [.nested]
    let tokens : List Token :=
      [⟨.letter, "x", 0⟩, ⟨.controlWord, "\\deep", 1⟩, ⟨.letter, "y", 7⟩, ⟨.other, "|", 8⟩]
    let e : TexError := ⟨.unterminated "braket" [("barmax", .integer 1), ("barcount", .integer 0),
      ("open", "\x7b"), ("close", "\x7d"), ("stretchy", .truth true)], some 1⟩
    Dialect.ofPackages ["braket"] = .ok .usual ∧
    (∀ lexicon ∈ [Lexicon.nested], lexicon.IsOfTemplates) ∧
    (∀ lexicon ∈ [Lexicon.nested], lexicon.IsLexed) ∧
    tokenize "x\\deep y|" = .ok tokens ∧ readTex d 2 "x\\deep y|" = .error (.tex e) ∧
    ∃ s ∈ tokens, e.offset = some (s.start : Int) ∧ ∃ t, Reader.Stems d (.fresh tokens 2) s t ∧
      (Reader.FailsAt d (.fresh tokens 2) t e.cause ∨
        Reader.LeavesOpen d (.fresh tokens 2) t e.cause) := by
  intro d tokens e
  have hnames : Dialect.ofPackages ["braket"] = .ok _ := rfl
  have hl : ∀ lexicon ∈ [Lexicon.nested], lexicon.IsOfTemplates := by
    intro lexicon hlexicon entry hentry
    rw [List.mem_singleton.1 hlexicon] at hentry
    simp only [Lexicon.nested, List.mem_cons, List.not_mem_nil, or_false] at hentry
    rcases hentry with rfl | rfl
    · exact ⟨_, none, rfl⟩
    · exact ⟨_, some 1, rfl⟩
  have hlexed : ∀ lexicon ∈ [Lexicon.nested], lexicon.IsLexed := by
    intro lexicon hlexicon
    rw [List.mem_singleton.1 hlexicon]
    show ∀ entry ∈ Lexicon.nested.entries, entry.2.isLexed = true
    decide +kernel
  have htokens : tokenize "x\\deep y|" = .ok tokens := by decide +kernel
  have hdeep : tokenize "\\wide" = .ok [⟨.controlWord, "\\wide", 0⟩] := by decide +kernel
  have hwide : tokenize "\\Set\x7b#1" =
      .ok [⟨.controlWord, "\\Set", 0⟩, ⟨.openBrace, "\x7b", 4⟩, ⟨.parameter, "#1", 5⟩] := by
    decide +kernel
  have hargument : Reader.arguments "\\wide" 1 [⟨.letter, "y", 7⟩, ⟨.other, "|", 8⟩] =
      .ok ([[⟨.letter, "y", 7⟩]], [⟨.other, "|", 8⟩]) := rfl
  have hread : readTex d 2 "x\\deep y|" = .error (.tex e) := by
    rw [readTex, htokens]
    show (Reader.run d ⟨_, _ :: _, 2⟩ >>= _) = _
    rw [Reader.run_cons]
    show (Reader.run d ⟨_, _ :: _, 1 + 1⟩ >>= _) = _
    rw [Reader.run_template rfl rfl rfl hdeep rfl]
    show (Reader.run d ⟨_, _ :: _, 0 + 1⟩ >>= _) = _
    rw [Reader.run_template rfl rfl hargument hwide rfl]
    show (Reader.run d ⟨_, _, 0⟩ >>= _) = _
    rw [Reader.run_of_runFor (show Reader.runFor d 4 _ = some (.ok _) from rfl)]
    rfl
  exact ⟨rfl, hl, hlexed, htokens, hread, readTex_error_located hnames hl hlexed htokens hread⟩

end Formulary
