import Mathlib.Data.List.Forall2
import Formulary.Proofs.Reader.ExpansionLimit
import Formulary.Proofs.Reader.Outcome

/-! # Places do not influence what is read

Tokens carry where they were read, frames where they were opened, and errors where they arose.  Two
of them are *alike* if they differ in that alone.  Readers with alike stacks and alike inputs make
alike steps (`Reader.step_agrees`): places are handed on and never looked at.  So texts whose tokens
are alike stand for the same formula or fail for the same cause (`readTex_alike`). -/

namespace Formulary

/-! ### Results that agree -/

/-- The results of two runs agree: both come to something and that is related by `R`, or both fail
and the failures are related by `E`. -/
inductive Agrees {ε α : Type} (E : ε → ε → Prop) (R : α → α → Prop) :
    Except ε α → Except ε α → Prop
  | ok {a b : α} (h : R a b) : Agrees E R (.ok a) (.ok b)
  | error {e e' : ε} (h : E e e') : Agrees E R (.error e) (.error e')

namespace Agrees

variable {ε ε' α β : Type} {E : ε → ε → Prop} {R : α → α → Prop} {S : β → β → Prop}
  {x y : Except ε α}

theorem bind {f g : α → Except ε β} (hx : Agrees E R x y)
    (hf : ∀ a b, R a b → Agrees E S (f a) (g b)) : Agrees E S (x >>= f) (y >>= g) := by
  cases hx with
  | ok h => exact hf _ _ h
  | error h => exact .error h

theorem mapError {E' : ε' → ε' → Prop} {f : ε → ε'} (hx : Agrees E R x y)
    (hf : ∀ e e', E e e' → E' (f e) (f e')) : Agrees E' R (x.mapError f) (y.mapError f) := by
  cases hx with
  | ok h => exact .ok h
  | error h => exact .error (hf _ _ h)

theorem refl (hE : ∀ e, E e e) (hR : ∀ a, R a a) (x : Except ε α) : Agrees E R x x := by
  cases x with
  | ok a => exact .ok (hR a)
  | error e => exact .error (hE e)

end Agrees

/-! ### Alike data -/

/-- The tokens differ at most in where they start. -/
def Token.Alike (t u : Token) : Prop := ∃ start, u = { t with start }

/-- The items differ at most in where they were read. -/
def Frame.Alike (frame other : Frame) : Prop := ∃ offset, other = { frame with offset }

/-- The failures differ at most in where they arose. -/
inductive Failure.Alike : Failure → Failure → Prop
  | tex (cause : TexCause) (offset offset' : Option Int) :
      Alike (.tex ⟨cause, offset⟩) (.tex ⟨cause, offset'⟩)
  | fault (fault : Fault) : Alike (.fault fault) (.fault fault)

/-- Stacks of alike items. -/
abbrev Stack.Alike : Stack → Stack → Prop := List.Forall₂ Frame.Alike

/-- Inputs of alike tokens. -/
abbrev InputAlike : List Token → List Token → Prop := List.Forall₂ Token.Alike

theorem Failure.Alike.refl (failure : Failure) : failure.Alike failure := by
  cases failure with
  | tex e => exact .tex e.cause _ _
  | fault f => exact .fault f

theorem Failure.Alike.locate {failure failure' : Failure} (h : failure.Alike failure')
    (offset offset' : Int) : (failure.locate offset).Alike (failure'.locate offset') := by
  cases h with
  | tex cause => exact .tex cause _ _
  | fault f => exact .fault f

theorem Failure.alike_ofCause (cause cause' : TexCause) (h : cause = cause') :
    (Failure.ofCause cause).Alike (.ofCause cause') := h ▸ .refl _

theorem Frame.Alike.refl (frame : Frame) : frame.Alike frame := ⟨frame.offset, rfl⟩

/-! ### Pushing -/

theorem ite_related {α : Type} {R : α → α → Prop} {p : Prop} [Decidable p] {a b a' b' : α}
    (h : R a a') (h' : R b b') : R (if p then a else b) (if p then a' else b') := by
  split
  · exact h
  · exact h'

namespace Frame

variable {kinds : FrameKinds} {frame frame' item item' : Frame}

/-- The outcomes of two checks: alike frames, and the same verdict or alike failures. -/
def ChecksAlike (x y : Frame × Except Failure Verdict) : Prop :=
  x.1.Alike y.1 ∧ Agrees Failure.Alike Eq x.2 y.2

theorem finish_agrees (kinds : FrameKinds) (h : frame.Alike frame') :
    ChecksAlike (frame, frame.finish kinds) (frame', frame'.finish kinds) := by
  refine ⟨h, ?_⟩
  obtain ⟨offset, rfl⟩ := h
  exact .refl .refl (fun _ => rfl) (frame.finish kinds)

theorem checkDefault_agrees (h : frame.Alike frame') (hi : item.Alike item') :
    ChecksAlike (frame.checkDefault item) (frame'.checkDefault item') := by
  obtain ⟨offset, rfl⟩ := h
  obtain ⟨offset', rfl⟩ := hi
  unfold checkDefault
  refine ite_related (ite_related ?_ ?_) (ite_related ?_ ?_)
  · exact ⟨⟨_, rfl⟩, .error (.tex ..)⟩
  · exact ⟨⟨_, rfl⟩, .error (.refl _)⟩
  · exact ⟨⟨_, rfl⟩, .ok rfl⟩
  · exact ⟨⟨_, rfl⟩, .ok rfl⟩

theorem check_agrees (kinds : FrameKinds) (h : frame.Alike frame') (hi : item.Alike item') :
    ChecksAlike (frame.check kinds item) (frame'.check kinds item') := by
  have hdefault := checkDefault_agrees h hi
  have hfinish := finish_agrees kinds h
  obtain ⟨offset, rfl⟩ := h
  obtain ⟨offset', rfl⟩ := hi
  unfold check
  dsimp only
  rcases frame.kind.rule with _ | _ | _ | _ | _ | _
  · exact hdefault
  · exact ite_related hfinish hdefault
  · exact ite_related hfinish hdefault
  · exact ite_related (finish_agrees kinds ⟨offset, rfl⟩) hdefault
  · exact ite_related (ite_related hfinish ⟨⟨_, rfl⟩, .error (.refl _)⟩) hdefault
  · exact ite_related hfinish (ite_related ⟨⟨_, rfl⟩, .ok rfl⟩ hdefault)

end Frame

theorem Stack.push_agrees (kinds : FrameKinds) {stack stack' : Stack} {item item' : Frame}
    (h : stack.Alike stack') (hi : item.Alike item') :
    Agrees Failure.Alike Stack.Alike (stack.push kinds item).toExcept
      (stack'.push kinds item').toExcept := by
  induction h generalizing item item' with
  | nil => exact .ok (.cons hi .nil)
  | @cons top top' below below' htop hbelow ih =>
    have hcheck := Frame.check_agrees kinds htop hi
    rw [push, push]
    generalize top.check kinds item = outcome at hcheck
    generalize top'.check kinds item' = outcome' at hcheck
    obtain ⟨after, verdict⟩ := outcome
    obtain ⟨after', verdict'⟩ := outcome'
    obtain ⟨hafter, hverdict⟩ := hcheck
    cases hverdict with
    | error hfailure => exact .error hfailure
    | @ok verdict verdict' heq =>
      subst heq
      cases verdict with
      | keep => exact .ok (.cons hi (.cons hafter hbelow))
      | absorb => exact .ok (.cons hafter hbelow)
      | close result => exact ih (.refl result)

namespace Reader

/-! ### Taking tokens -/

section

variable {input input' : List Token}

/-- Inputs that are cut at the same place. -/
def CutsAlike (x y : List Token × List Token) : Prop := InputAlike x.1 y.1 ∧ InputAlike x.2 y.2

theorem groupEnd?_alike (h : InputAlike input input') (depth : Nat) :
    Option.Rel CutsAlike (groupEnd? depth input) (groupEnd? depth input') := by
  induction h generalizing depth with
  | nil => exact .none
  | @cons t t' rest rest' ht hrest ih =>
    obtain ⟨start, rfl⟩ := ht
    have deeper (depth : Nat) : Option.Rel CutsAlike
        ((groupEnd? depth rest).map fun found => (t :: found.1, found.2))
        ((groupEnd? depth rest').map fun found => ({ t with start } :: found.1, found.2)) := by
      have hcut := ih depth
      generalize groupEnd? depth rest = x, groupEnd? depth rest' = y at hcut
      cases hcut with
      | none => exact .none
      | some hcut => exact .some ⟨.cons ⟨start, rfl⟩ hcut.1, hcut.2⟩
    unfold groupEnd?
    refine ite_related ?_ (ite_related (deeper _) (deeper _))
    cases depth with
    | zero => exact .some ⟨.nil, hrest⟩
    | succ depth => exact deeper depth

theorem argument_agrees (h : InputAlike input input') (command : String) :
    Agrees Eq CutsAlike (argument command input) (argument command input') := by
  cases h with
  | nil => exact .error rfl
  | @cons t t' rest rest' ht hrest =>
    obtain ⟨start, rfl⟩ := ht
    unfold argument
    refine ite_related (.error rfl) (ite_related ?_ (.ok ⟨.cons ⟨start, rfl⟩ .nil, hrest⟩))
    have hcut := groupEnd?_alike hrest 0
    generalize groupEnd? 0 rest = x, groupEnd? 0 rest' = y at hcut
    cases hcut with
    | none => exact .error rfl
    | some hcut => exact .ok hcut

theorem arguments_agrees (h : InputAlike input input') (command : String) (n : Nat) :
    Agrees Eq (fun x y => List.Forall₂ InputAlike x.1 y.1 ∧ InputAlike x.2 y.2)
      (arguments command n input) (arguments command n input') := by
  induction n generalizing input input' with
  | zero => exact .ok ⟨.nil, h⟩
  | succ n ih =>
    refine (argument_agrees h command).bind fun x y hxy => ?_
    refine (ih hxy.2).bind fun others others' hothers => ?_
    exact .ok ⟨.cons hxy.1 hothers.1, hothers.2⟩

theorem delimiter_agrees (h : InputAlike input input') (command : String) :
    Agrees Eq (fun x y => x.1 = y.1 ∧ InputAlike x.2 y.2) (delimiter command input)
      (delimiter command input') := by
  cases h with
  | nil => exact .error rfl
  | @cons t t' rest rest' ht hrest =>
    obtain ⟨start, rfl⟩ := ht
    unfold delimiter
    dsimp only
    cases Vocabulary.delimiters.get? t.text with
    | none => exact .error rfl
    | some fence => exact .ok ⟨rfl, hrest⟩

theorem spelling_eq (h : InputAlike input input') : spelling input = spelling input' := by
  have htexts : input.map Token.text = input'.map Token.text := by
    induction h with
    | nil => rfl
    | cons ht _ ih =>
      obtain ⟨start, rfl⟩ := ht
      rw [List.map_cons, List.map_cons, ih]
  rw [spelling, spelling, htexts]

theorem getElem?_related {α : Type} {R : α → α → Prop} {l l' : List α} (h : List.Forall₂ R l l')
    (i : Nat) : Option.Rel R l[i]? l'[i]? := by
  induction h generalizing i with
  | nil => exact .none
  | cons hhead _ ih =>
    cases i with
    | zero => exact .some hhead
    | succ i => exact ih i

theorem substitute_agrees {given given' : List (List Token)} (h : List.Forall₂ InputAlike given given')
    (command command' : Token) (template : List Token) :
    Agrees Eq InputAlike (substitute command given template)
      (substitute command' given' template) := by
  induction template with
  | nil => exact .ok .nil
  | cons t rest ih =>
    unfold substitute
    refine ite_related ?_ (ih.bind fun others others' hothers => .ok (.cons ⟨_, rfl⟩ hothers))
    have hargument := getElem?_related h (parameterIndex t)
    generalize given[parameterIndex t]? = x, given'[parameterIndex t]? = y at hargument
    cases hargument with
    | none => exact .error rfl
    | some hrelated =>
      exact ih.bind fun others others' hothers => .ok (List.rel_append hrelated hothers)

theorem mergeBars_alike (h : InputAlike input input') (single : String) :
    ∃ spelling after after', mergeBars single input = (spelling, after) ∧
      mergeBars single input' = (spelling, after') ∧ InputAlike after after' := by
  cases h with
  | nil => exact ⟨single, [], [], rfl, rfl, .nil⟩
  | @cons t t' rest rest' ht hrest =>
    obtain ⟨start, rfl⟩ := ht
    unfold mergeBars
    dsimp only
    split
    · exact ⟨_, rest, rest', rfl, rfl, hrest⟩
    · exact ⟨_, _, _, rfl, rfl, .cons ⟨start, rfl⟩ hrest⟩

end

/-! ### Steps -/

/-- The readers differ at most in where their tokens and frames stand. -/
structure Alike (r r' : Reader) : Prop where
  stack : r.stack.Alike r'.stack
  input : InputAlike r.input r'.input
  expansions : r.expansions = r'.expansions

section

variable {d : Dialect} {r r' : Reader}

/-- Runs that agree. -/
abbrev StepsAlike : Except Failure Reader → Except Failure Reader → Prop := Agrees Failure.Alike Alike

theorem pushItem_agrees (h : r.Alike r') (offset offset' : Nat) {item item' : Frame}
    (hi : item.Alike item') :
    StepsAlike (r.pushItem d offset item) (r'.pushItem d offset' item') := by
  obtain ⟨place, rfl⟩ := hi
  refine (Stack.push_agrees d.kinds h.stack ⟨_, rfl⟩).bind fun stack stack' hstack => ?_
  exact .ok ⟨hstack, h.input, h.expansions⟩

theorem pushNew_agrees (h : r.Alike r') (offset offset' : Nat) (kind : String)
    (properties : Fields Value) :
    StepsAlike (r.pushNew d offset kind properties) (r'.pushNew d offset' kind properties) := by
  refine (Agrees.refl Failure.Alike.refl Frame.Alike.refl _).bind fun item item' hi => ?_
  exact pushItem_agrees h offset offset' hi

theorem pushNode_agrees (h : r.Alike r') (f : Formula) :
    StepsAlike (r.pushNode d f) (r'.pushNode d f) := by
  refine (Agrees.refl Failure.Alike.refl Frame.Alike.refl _).bind fun item item' hi => ?_
  refine (Stack.push_agrees d.kinds h.stack hi).bind fun stack stack' hstack => ?_
  exact .ok ⟨hstack, h.input, h.expansions⟩

theorem pushNodes_agrees (h : r.Alike r') (fs : List Formula) :
    StepsAlike (r.pushNodes d fs) (r'.pushNodes d fs) := by
  induction fs generalizing r r' with
  | nil => exact .ok h
  | cons f rest ih => exact (pushNode_agrees h f).bind fun next next' hnext => ih hnext

theorem separate_agrees (h : r.Alike r') (single : String) (count : Int) {top top' : Frame}
    (htop : top.Alike top') {below below' : Stack} (hbelow : below.Alike below') :
    StepsAlike (r.separate d single count top below) (r'.separate d single count top' below') := by
  obtain ⟨spelling, after, after', hafter, hafter', hinput⟩ := mergeBars_alike h.input single
  obtain ⟨offset, rfl⟩ := htop
  unfold separate
  rw [hafter, hafter']
  refine ite_related ?_ ?_
  · have hcounted : Alike
        ⟨top.set "barcount" (.integer (count + 1)) :: below, after, r.expansions⟩
        ⟨Frame.set { top with offset } "barcount" (.integer (count + 1)) :: below', after',
          r'.expansions⟩ :=
      ⟨.cons ⟨offset, rfl⟩ hbelow, hinput, h.expansions⟩
    exact pushNodes_agrees hcounted _
  · have hplain : Alike ⟨r.stack, after, r.expansions⟩ ⟨r'.stack, after', r'.expansions⟩ :=
      ⟨h.stack, hinput, h.expansions⟩
    exact pushNode_agrees hplain _

theorem bar_agrees (h : r.Alike r') (command : String) :
    StepsAlike (r.bar d command) (r'.bar d command) := by
  have hplain := pushNode_agrees (d := d) h (plainBar (if command = "|" then "|" else doubleBar))
  have hstack := h.stack
  unfold bar
  generalize r.stack = stack, r'.stack = stack' at hstack
  cases hstack with
  | nil => exact .error (.refl _)
  | @cons top top' below below' htop hbelow =>
    have hseparate := fun count => separate_agrees (d := d) h (if command = "|" then "|" else doubleBar)
      count htop hbelow
    obtain ⟨offset, rfl⟩ := htop
    have hget (name : String) (value : Value) :
        Frame.get { top with offset } name value = top.get name value := rfl
    refine ite_related ?_ hplain
    simp only [hget]
    cases (top.get "barcount" .absent).count? with
    | none => exact .error (.refl _)
    | some count =>
      dsimp only
      cases (top.get "barmax" .absent).reached? count with
      | none => exact .error (.refl _)
      | some reached =>
        cases reached with
        | true => exact hplain
        | false => exact hseparate count

theorem expand_agrees (h : r.Alike r') {command command' : Token} (hcommand : command.Alike command')
    (text : Value) (arity : Nat) :
    StepsAlike (r.expand command text arity) (r'.expand command' text arity) := by
  obtain ⟨start, rfl⟩ := hcommand
  unfold expand
  refine ((arguments_agrees h.input command.text arity).mapError
    Failure.alike_ofCause).bind fun x y hxy => ?_
  rw [← h.expansions]
  cases r.expansions with
  | zero => exact .error (.refl _)
  | succ expansions =>
    refine (Agrees.refl .refl (fun _ => rfl) _).bind fun template template' htemplate => ?_
    subst htemplate
    refine ((substitute_agrees hxy.1 command _ template).mapError
      Failure.alike_ofCause).bind fun expansion expansion' hexpansion => ?_
    exact .ok ⟨h.stack, List.rel_append hexpansion hxy.2, rfl⟩

theorem perform_agrees (h : r.Alike r') {t t' : Token} (ht : t.Alike t') (action : Action) :
    StepsAlike (r.perform d t action) (r'.perform d t' action) := by
  have hnode := pushNode_agrees (d := d) h
  have hnew {input input' : List Token} (hinput : InputAlike input input') (kind : String)
      (properties : Fields Value) :
      StepsAlike (pushNew d t.start { r with input } kind properties)
        (pushNew d t'.start { r' with input := input' } kind properties) := by
    have hr : Alike { r with input } { r' with input := input' } := ⟨h.stack, hinput, h.expansions⟩
    exact pushNew_agrees hr t.start t'.start kind properties
  have hexpand := expand_agrees h ht
  obtain ⟨start, rfl⟩ := ht
  cases action with
  | left | right =>
    refine ((delimiter_agrees h.input t.text).mapError Failure.alike_ofCause).bind fun x y hxy => ?_
    obtain ⟨fence, input⟩ := x
    obtain ⟨fence', input'⟩ := y
    obtain ⟨rfl, hinput⟩ := hxy
    exact hnew hinput _ _
  | begin | finish =>
    refine ((argument_agrees h.input t.text).mapError Failure.alike_ofCause).bind fun x y hxy => ?_
    dsimp only
    rw [spelling_eq hxy.1]
    exact hnew hxy.2 _ _
  | openGroup | closeGroup => exact hnew h.input _ _
  | template text arity =>
    rw [perform, perform]
    cases (arity.getD (.integer 0)).count? with
    | none => exact .error (.refl _)
    | some n => exact hexpand text n.toNat
  | braket opener closer stretchy limit =>
    have hinput := h.input
    rw [perform, perform]
    generalize r.input = input, r'.input = input' at hinput
    cases hinput with
    | nil => exact .error (.refl _)
    | @cons next next' rest rest' hnext hrest =>
      obtain ⟨start, rfl⟩ := hnext
      exact ite_related (hnew hrest _ _) (.error (.refl _))
  | bar => exact bar_agrees h t.text
  | illegalParameter | misused => exact .error (.refl _)
  | _ => exact hnode _

/-- Alike readers make alike steps. -/
theorem step_agrees (h : r.Alike r') {t t' : Token} (ht : t.Alike t') :
    StepsAlike (r.step d t) (r'.step d t') := by
  have hmeaning : meaning d.vocabulary t = meaning d.vocabulary t' := by
    obtain ⟨start, rfl⟩ := ht
    rfl
  rw [step, step, hmeaning]
  refine ((Agrees.refl (fun _ => rfl) (fun _ => rfl) _).mapError Failure.alike_ofCause).bind
    fun action action' haction => ?_
  subst haction
  exact perform_agrees h ht action

theorem Alike.exists_cons {stack : Stack} {t : Token} {rest : List Token} {expansions : Nat}
    (h : Alike ⟨stack, t :: rest, expansions⟩ r') : ∃ stack' t' rest',
      r' = ⟨stack', t' :: rest', expansions⟩ ∧ t.Alike t' ∧
      Alike ⟨stack, rest, expansions⟩ ⟨stack', rest', expansions⟩ := by
  obtain ⟨stack', input', expansions'⟩ := r'
  obtain ⟨hstack, hinput, hexpansions⟩ := h
  cases hexpansions
  cases hinput with
  | @cons _ t' _ rest' ht hrest => exact ⟨stack', t', rest', rfl, ht, hstack, hrest, rfl⟩

theorem run_agrees (h : r.Alike r') : StepsAlike (r.run d) (r'.run d) := by
  fun_induction Reader.run d r generalizing r' with
  | case1 stack expansions =>
    obtain ⟨stack', input', expansions'⟩ := r'
    obtain ⟨hstack, hinput, hexpansions⟩ := h
    cases hinput
    rw [run]
    exact .ok ⟨hstack, .nil, hexpansions⟩
  | case2 stack t rest expansions failure hstep =>
    obtain ⟨stack', t', rest', rfl, ht, hr⟩ := h.exists_cons
    have hsteps := step_agrees (d := d) hr ht
    rw [run_cons]
    rw [hstep] at hsteps
    generalize Reader.step d t' ⟨stack', rest', expansions⟩ = y at hsteps
    cases hsteps with
    | error hfailure => exact .error (hfailure.locate ..)
  | case3 stack t rest expansions next hstep _ ih =>
    obtain ⟨stack', t', rest', rfl, ht, hr⟩ := h.exists_cons
    have hsteps := step_agrees (d := d) hr ht
    rw [run_cons]
    rw [hstep] at hsteps
    generalize Reader.step d t' ⟨stack', rest', expansions⟩ = y at hsteps
    cases hsteps with
    | ok hnext => exact ih hnext

theorem close_agrees (h : r.Alike r') (length length' : Nat) :
    StepsAlike (r.close d length) (r'.close d length') := by
  have hpush := pushNew_agrees (d := d) h length length' "stop" []
  rw [close, close]
  generalize r.pushNew d length "stop" [] = x, r'.pushNew d length' "stop" [] = y at hpush
  cases hpush with
  | ok hr => exact .ok hr
  | error hfailure => exact .error (hfailure.locate ..)

theorem outcome_agrees (h : r.Alike r') : Agrees Failure.Alike Eq r.outcome r'.outcome := by
  have hstack := h.stack
  rw [outcome, outcome]
  generalize r.stack = stack, r'.stack = stack' at hstack
  cases hstack with
  | nil => exact .error (.refl _)
  | cons htop _ =>
    obtain ⟨offset, rfl⟩ := htop
    exact .ok rfl

end

end Reader

/-! ### Whole texts -/

theorem inputAlike_of_map_eq {tokens tokens' : List Token}
    (h : tokens.map (fun t => (t.kind, t.text)) = tokens'.map fun t => (t.kind, t.text)) :
    InputAlike tokens tokens' := by
  induction tokens generalizing tokens' with
  | nil =>
    cases tokens' with
    | nil => exact .nil
    | cons => cases h
  | cons t rest ih =>
    cases tokens' with
    | nil => cases h
    | cons t' rest' =>
      obtain ⟨hhead, hrest⟩ := List.cons.inj h
      obtain ⟨hkind, htext⟩ := Prod.mk.inj hhead
      refine .cons ⟨t'.start, ?_⟩ (ih hrest)
      rw [hkind, htext]

/-- Texts of alike tokens are read alike. -/
theorem readTex_agrees (d : Dialect) (limit : Int) {text text' : String} {tokens tokens' : List Token}
    (h : tokenize text = .ok tokens) (h' : tokenize text' = .ok tokens')
    (halike : InputAlike tokens tokens') :
    Agrees Failure.Alike Eq (readTex d limit text) (readTex d limit text') := by
  rw [readTex, readTex, h, h']
  refine (Agrees.refl .refl (fun _ => rfl) (Stack.initial d.kinds)).bind fun stack _ hstack => ?_
  subst hstack
  have hstart : Reader.Alike ⟨stack, tokens, limit.toNat⟩ ⟨stack, tokens', limit.toNat⟩ :=
    ⟨List.forall₂_same.2 fun _ _ => .refl _, halike, rfl⟩
  exact (Reader.run_agrees hstart).bind fun r r' hr =>
    (Reader.close_agrees hr ..).bind fun last last' hlast => Reader.outcome_agrees hlast

/-- Texts whose tokens are of the same kinds and spellings, wherever these stand, are the same to a
reader: with some packages and templates both stand for one formula, or reading fails for one
cause, and so with the same identifier, message and details. -/
theorem readTex_alike {names : List String} {d : Dialect}
    (hnames : Dialect.ofPackages names = .ok d) {lexicons : List Lexicon}
    (hl : ∀ lexicon ∈ lexicons, lexicon.IsOfTemplates) (limit : Int) {text text' : String}
    {tokens tokens' : List Token} (h : tokenize text = .ok tokens) (h' : tokenize text' = .ok tokens')
    (halike : tokens.map (fun t => (t.kind, t.text)) = tokens'.map fun t => (t.kind, t.text)) :
    (∃ f, readTex (d.addLexicons lexicons) limit text = .ok (some f) ∧
      readTex (d.addLexicons lexicons) limit text' = .ok (some f)) ∨
    ∃ cause offset offset',
      readTex (d.addLexicons lexicons) limit text = .error (.tex ⟨cause, offset⟩) ∧
      readTex (d.addLexicons lexicons) limit text' = .error (.tex ⟨cause, offset'⟩) := by
  have hyields := readTex_yields (Dialect.isSound_of_packages hnames hl) limit text
  have hagrees := readTex_agrees (d.addLexicons lexicons) limit h h' (inputAlike_of_map_eq halike)
  generalize readTex (d.addLexicons lexicons) limit text = x,
    readTex (d.addLexicons lexicons) limit text' = y at hyields hagrees
  cases hagrees with
  | @ok found found' heq =>
    subst heq
    obtain ⟨f, rfl⟩ := Option.isSome_iff_exists.1 hyields
    exact .inl ⟨f, rfl, rfl⟩
  | error hfailure =>
    cases hfailure with
    | tex cause offset offset' => exact .inr ⟨cause, offset, offset', rfl, rfl⟩
    | fault => exact hyields.elim

/-- A template with blanks in it. -/
def Lexicon.pairing : Lexicon where
  category := .command
  entries := [("pair", .template "\x7b#1 ,\t#2\x7d" (some (.integer 2)))]

theorem readTex_alike_spaced :
    Dialect.ofPackages ["braket"] = .ok .usual ∧
    (∀ lexicon ∈ [Lexicon.pairing], lexicon.IsOfTemplates) ∧
    let d := Dialect.usual.addLexicons [.pairing]
    (∃ f, readTex d 2 "\\set\x7bx|\\pair yz" = .ok (some f) ∧
      readTex d 2 "\\set \x7b x |\\pair\ty z " = .ok (some f)) ∨
    ∃ cause offset offset',
      readTex d 2 "\\set\x7bx|\\pair yz" = .error (.tex ⟨cause, offset⟩) ∧
      readTex d 2 "\\set \x7b x |\\pair\ty z " = .error (.tex ⟨cause, offset'⟩) := by
  have hnames : Dialect.ofPackages ["braket"] = .ok _ := rfl
  have hl : ∀ lexicon ∈ [Lexicon.pairing], lexicon.IsOfTemplates := by
    intro lexicon hlexicon entry hentry
    rw [List.mem_singleton.1 hlexicon] at hentry
    rw [List.mem_singleton.1 hentry]
    exact ⟨_, some 2, rfl⟩
  have htight : tokenize "\\set\x7bx|\\pair yz" = .ok [
      ⟨.controlWord, "\\set", 0⟩, ⟨.openBrace, "\x7b", 4⟩, ⟨.letter, "x", 5⟩, ⟨.other, "|", 6⟩,
      ⟨.controlWord, "\\pair", 7⟩, ⟨.letter, "y", 13⟩, ⟨.letter, "z", 14⟩] := by
    decide +kernel
  have hspaced : tokenize "\\set \x7b x |\\pair\ty z " = .ok [
      ⟨.controlWord, "\\set", 0⟩, ⟨.openBrace, "\x7b", 5⟩, ⟨.letter, "x", 7⟩, ⟨.other, "|", 9⟩,
      ⟨.controlWord, "\\pair", 10⟩, ⟨.letter, "y", 16⟩, ⟨.letter, "z", 18⟩] := by
    decide +kernel
  exact ⟨rfl, hl, readTex_alike hnames hl 2 htight hspaced rfl⟩

end Formulary
