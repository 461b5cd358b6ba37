import Formulary.Tex.Reader

/-! # The limit on expansions

A reader makes an expansion where its next token is a template and the arguments are there
(`Reader.attempts`).  Every expansion is counted (`Reader.step_count`), so there are never more than
the limit allows, and the limit is what a text fails for just where one more is due
(`Reader.run_exhausted`).

Apart from that the limit has no influence: a step that is allowed goes the same way if more
expansions are (`Reader.step_add`), and so does a whole run (`Reader.run_more`).  Together this says
what the limit means for a text (`readTex_limit`).

A run ends, but it recurses on a measure that no evaluation opens.  One that is over after so many
steps is computed with these as fuel (`Reader.run_of_runFor`, `readTex_of_runFor`). -/

namespace Formulary

/-! ### Errors other than that of the limit -/

/-- A failure that neither step has, both together do not have. -/
theorem bind_ne_error {ε α β : Type} {e : ε} {x : Except ε α} {f : α → Except ε β}
    (hx : x ≠ .error e) (hf : ∀ a, f a ≠ .error e) : (x >>= f) ≠ .error e := by
  cases x with
  | ok a => exact hf a
  | error other =>
    intro h
    cases h
    exact hx rfl

/-- The result is not that there were too many expansions. -/
def Spares {α : Type} (x : Except Failure α) : Prop :=
  ∀ offset, x ≠ .error (.tex ⟨.tooManyExpansions, offset⟩)

namespace Spares

variable {α β : Type}

theorem ok (a : α) : Spares (.ok a) := fun _ h => by cases h

theorem fault (f : Fault) : Spares (α := α) (.error (.fault f)) := fun _ h => by cases h

theorem ofCause {cause : TexCause} (h : cause ≠ .tooManyExpansions) :
    Spares (α := α) (.error (.ofCause cause)) := by
  intro offset heq
  cases heq
  exact h rfl

theorem error {failure : Failure} (h : Spares (α := α) (.error failure)) :
    Spares (α := β) (.error failure) := by
  intro offset heq
  cases heq
  exact h offset rfl

theorem bind {x : Except Failure α} {f : α → Except Failure β} (hx : Spares x)
    (hf : ∀ a, Spares (f a)) : Spares (x >>= f) :=
  fun offset => bind_ne_error (hx offset) fun a => hf a offset

theorem mapError_ofCause {x : Except TexCause α} (h : x ≠ .error .tooManyExpansions) :
    Spares (x.mapError .ofCause) := by
  cases x with
  | ok a => exact ok a
  | error cause => exact ofCause fun heq => h (congrArg Except.error heq)

end Spares

theorem Failure.locate_eq {failure : Failure} {offset : Int} {place : Option Int}
    (h : failure.locate offset = .tex ⟨.tooManyExpansions, place⟩) :
    ∃ place, failure = .tex ⟨.tooManyExpansions, place⟩ := by
  cases failure with
  | fault f => cases h
  | tex e =>
    obtain ⟨cause, place⟩ := e
    cases h
    exact ⟨place, rfl⟩

/-! ### Errors of a push -/

theorem FrameKinds.create_spares (kinds : FrameKinds) (kind : String) (properties : Fields Value) :
    Spares (kinds.create kind properties) := by
  rw [create]
  split
  · exact .ofCause TexCause.noConfusion
  · exact .ok _

theorem FrameKinds.wrap_spares (kinds : FrameKinds) (f : Option Formula) : Spares (kinds.wrap f) :=
  (kinds.create_spares "mml" []).bind fun _ => .ok _

namespace Frame

variable {kinds : FrameKinds} (frame item : Frame)

theorem grouped_spares : Spares frame.grouped := by
  rw [grouped, formulas]
  split
  · exact .ok _
  · exact .fault _

theorem row_spares : Spares frame.row := by
  rw [row]
  split
  · exact .ok _
  · exact frame.grouped_spares.bind fun _ => .ok _

theorem result_spares : Spares frame.result := by
  rw [result]
  split
  · exact frame.row_spares
  · exact frame.grouped_spares.bind fun _ => .ok _
  · exact frame.grouped_spares.bind fun _ => .ok _
  · exact frame.grouped_spares.bind fun _ => .ok _
  · refine frame.row_spares.bind fun row => ?_
    cases row with
    | none => exact .fault _
    | some row => exact .ok _

theorem finish_spares : Spares (frame.finish kinds) :=
  frame.result_spares.bind fun _ => (kinds.wrap_spares _).bind fun _ => .ok _

theorem checkDefault_spares : Spares (frame.checkDefault item).2 := by
  rw [checkDefault]
  split
  · split
    · exact fun offset h => by cases h
    · exact .ofCause TexCause.noConfusion
  · split <;> exact .ok _

theorem check_spares : Spares (frame.check kinds item).2 := by
  rw [check]
  split
  · exact checkDefault_spares frame item
  all_goals split
  · exact frame.finish_spares
  · exact checkDefault_spares frame item
  · exact frame.finish_spares
  · exact checkDefault_spares frame item
  · exact finish_spares _
  · exact checkDefault_spares frame item
  · simp only
    split
    · exact frame.finish_spares
    · exact .ofCause TexCause.noConfusion
  · exact checkDefault_spares frame item
  · exact frame.finish_spares
  · split
    · exact .ok _
    · exact checkDefault_spares frame item

end Frame

theorem Stack.push_spares (kinds : FrameKinds) (stack : Stack) (item : Frame) :
    Spares (stack.push kinds item).toExcept := by
  induction stack generalizing item with
  | nil => exact .ok _
  | cons top below ih =>
    have hcheck : Spares (top.check kinds item).2 := top.check_spares item
    rw [push]
    split
    rename_i after verdict hverdict
    rw [hverdict] at hcheck
    split
    · exact hcheck.error
    · exact .ok _
    · exact .ok _
    · exact ih _

theorem Token.tokensFrom_spares (start : Nat) (s : List Char) :
    Spares ((tokensFrom start s).mapError .tex) := by
  fun_induction tokensFrom start s with
  | case1 => exact .ok _
  | case2 start c rest hseparator ih => exact ih
  | case3 => exact fun offset h => by cases h
  | case4 start c rest hseparator kind more hlexeme e herror ih =>
    rw [herror] at ih
    exact ih.error
  | case5 => exact .ok _

theorem tokenize_spares (text : String) : Spares ((tokenize text).mapError .tex) :=
  Token.tokensFrom_spares 0 text.toList

namespace Reader

variable {d : Dialect} {r : Reader}

/-! ### More expansions -/

/-- The reader with `k` more expansions allowed. -/
def more (k : Nat) (r : Reader) : Reader := { r with expansions := r.expansions + k }

theorem map_more_bind {x : Except Failure α} {f g : α → Except Failure Reader} (k : Nat)
    (h : ∀ a, f a = (g a).map (more k)) : (x >>= f) = (x >>= g).map (more k) := by
  cases x with
  | error failure => rfl
  | ok a => exact h a

theorem pushItem_more (offset : Nat) (item : Frame) (k : Nat) :
    (r.more k).pushItem d offset item = (r.pushItem d offset item).map (more k) :=
  map_more_bind k fun _ => rfl

theorem pushNew_more (offset : Nat) (kind : String) (properties : Fields Value) (k : Nat) :
    (r.more k).pushNew d offset kind properties =
      (r.pushNew d offset kind properties).map (more k) :=
  map_more_bind k fun item => pushItem_more offset item k

theorem pushNode_more (f : Formula) (k : Nat) :
    (r.more k).pushNode d f = (r.pushNode d f).map (more k) :=
  map_more_bind k fun _ => map_more_bind k fun _ => rfl

theorem pushNodes_more (fs : List Formula) (k : Nat) :
    (r.more k).pushNodes d fs = (r.pushNodes d fs).map (more k) := by
  induction fs generalizing r with
  | nil => rfl
  | cons f rest ih =>
    rw [pushNodes, pushNodes, pushNode_more]
    cases hpush : r.pushNode d f with
    | error failure => rfl
    | ok r' => exact ih

theorem separate_more (single : String) (count : Int) (top : Frame) (below : Stack) (k : Nat) :
    (r.more k).separate d single count top below =
      (r.separate d single count top below).map (more k) := by
  obtain ⟨stack, input, expansions⟩ := r
  simp only [separate, more]
  obtain ⟨spelling, left⟩ := mergeBars single input
  split
  · exact pushNodes_more (r := ⟨_, left, expansions⟩) _ k
  · exact pushNode_more (r := ⟨stack, left, expansions⟩) _ k

theorem bar_more (command : String) (k : Nat) :
    (r.more k).bar d command = (r.bar d command).map (more k) := by
  obtain ⟨stack, input, expansions⟩ := r
  cases stack with
  | nil => rfl
  | cons top below =>
    have hplain := pushNode_more (d := d) (r := ⟨top :: below, input, expansions⟩)
      (plainBar (if command = "|" then "|" else doubleBar)) k
    rw [more] at hplain
    rw [more, bar, bar]
    simp only
    cases top.isKind "braket" with
    | false => exact hplain
    | true =>
      cases (top.get "barcount" .absent).count? with
      | none => rfl
      | some count =>
        simp only
        cases (top.get "barmax" .absent).reached? count with
        | none => rfl
        | some reached =>
          cases reached with
          | true => exact hplain
          | false => exact separate_more (r := ⟨top :: below, input, expansions⟩) _ _ _ _ k

/-- Whether a meaning has an expansion made: it is a template, and its arguments are there. -/
def expands (t : Token) (action : Action) (input : List Token) : Bool :=
  match action with
  | .template _ arity =>
    match (arity.getD (.integer 0)).count? with
    | some n => (arguments t.text n.toNat input).isOk
    | none => false
  | _ => false

theorem expand_more (command : Token) (text : Value) (arity : Nat) (k : Nat)
    (h : (arguments command.text arity r.input).isOk = true → 0 < r.expansions) :
    (r.more k).expand command text arity = (r.expand command text arity).map (more k) := by
  obtain ⟨stack, input, expansions⟩ := r
  rw [more, expand, expand]
  cases hfound : arguments command.text arity input with
  | error cause => rfl
  | ok found =>
    obtain ⟨n, rfl⟩ := Nat.exists_eq_succ_of_ne_zero (Nat.ne_of_gt (h (hfound ▸ rfl)))
    simp only [Nat.succ_eq_add_one, Nat.add_right_comm n 1 k]
    exact map_more_bind k fun _ => map_more_bind k fun _ => map_more_bind k fun _ => rfl

theorem perform_more {t : Token} {action : Action} (k : Nat)
    (h : expands t action r.input = true → 0 < r.expansions) :
    (r.more k).perform d t action = (r.perform d t action).map (more k) := by
  cases action with
  | left | right | begin | finish =>
    exact map_more_bind k fun (_, input) =>
      pushNew_more (r := { r with input }) _ _ _ k
  | openGroup | closeGroup => exact pushNew_more _ _ _ k
  | illegalParameter | misused => rfl
  | template text arity =>
    rw [perform, perform]
    rw [expands] at h
    cases hcount : (arity.getD (.integer 0)).count? with
    | none => rfl
    | some n => exact expand_more _ _ _ k (by simpa only [hcount] using h)
  | braket opener closer stretchy limit =>
    obtain ⟨stack, input, expansions⟩ := r
    rw [more, perform, perform]
    cases input with
    | nil => rfl
    | cons next input =>
      simp only
      split
      · exact pushNew_more (r := ⟨stack, input, expansions⟩) _ _ _ k
      · rfl
  | bar => exact bar_more _ k
  | _ => exact pushNode_more _ k

theorem step_more {t : Token} (k : Nat)
    (h : ∀ action, meaning d.vocabulary t = .ok action → expands t action r.input = true →
      0 < r.expansions) :
    (r.more k).step d t = (r.step d t).map (more k) := by
  rw [step, step]
  cases hmeaning : meaning d.vocabulary t with
  | error cause => rfl
  | ok action => exact perform_more k (h action hmeaning)

/-! ### Errors of a step -/

theorem argument_spares (command : String) (input : List Token) :
    argument command input ≠ .error .tooManyExpansions := by
  cases input with
  | nil => exact fun h => by cases h
  | cons t rest =>
    rw [argument]
    split
    · exact fun h => by cases h
    · split
      · split <;> exact fun h => by cases h
      · exact fun h => by cases h

theorem arguments_spares (command : String) (n : Nat) (input : List Token) :
    arguments command n input ≠ .error .tooManyExpansions := by
  induction n generalizing input with
  | zero => exact fun h => by cases h
  | succ n ih =>
    refine bind_ne_error (argument_spares command input) fun (_, input) => ?_
    exact bind_ne_error (ih input) fun _ h => by cases h

theorem delimiter_spares (command : String) (input : List Token) :
    delimiter command input ≠ .error .tooManyExpansions := by
  cases input with
  | nil => exact fun h => by cases h
  | cons t rest =>
    rw [delimiter]
    split <;> exact fun h => by cases h

theorem substitute_spares (command : Token) (given : List (List Token)) (template : List Token) :
    substitute command given template ≠ .error .tooManyExpansions := by
  induction template with
  | nil => exact fun h => by cases h
  | cons t rest ih =>
    rw [substitute]
    split
    · split
      · exact fun h => by cases h
      · exact bind_ne_error ih fun _ h => by cases h
    · exact bind_ne_error ih fun _ h => by cases h

theorem meaning_spares (vocabulary : Vocabulary) (t : Token) :
    meaning vocabulary t ≠ .error .tooManyExpansions := by
  rw [meaning]
  split
  · split <;> exact fun h => by cases h
  · split <;> exact fun h => by cases h

theorem pushItem_spares (offset : Nat) (item : Frame) : Spares (r.pushItem d offset item) :=
  (Stack.push_spares _ _ _).bind fun _ => .ok _

theorem pushNew_spares (offset : Nat) (kind : String) (properties : Fields Value) :
    Spares (r.pushNew d offset kind properties) :=
  (d.kinds.create_spares _ _).bind fun item => pushItem_spares offset item

theorem pushNode_spares (f : Formula) : Spares (r.pushNode d f) :=
  (d.kinds.wrap_spares _).bind fun _ => (Stack.push_spares _ _ _).bind fun _ => .ok _

theorem pushNodes_spares (fs : List Formula) : Spares (r.pushNodes d fs) := by
  induction fs generalizing r with
  | nil => exact .ok _
  | cons f rest ih => exact (pushNode_spares f).bind fun _ => ih

theorem bar_spares (command : String) : Spares (r.bar d command) := by
  rw [bar]
  split
  · exact .fault _
  · split
    · split
      · exact .fault _
      · split
        · exact .fault _
        · exact pushNode_spares _
        · rw [separate]
          split
          split
          · exact pushNodes_spares _
          · exact pushNode_spares _
    · exact pushNode_spares _

theorem templateTokens_spares (text : Value) : Spares (templateTokens text) := by
  cases text with
  | text s => exact tokenize_spares s
  | _ => exact .fault _

theorem expand_spares {command : Token} {text : Value} {arity : Nat}
    (h : (arguments command.text arity r.input).isOk = true → 0 < r.expansions) :
    Spares (r.expand command text arity) := by
  obtain ⟨stack, input, expansions⟩ := r
  rw [expand]
  cases hfound : arguments command.text arity input with
  | error cause => exact .ofCause fun hc => arguments_spares _ _ _ (hc ▸ hfound)
  | ok found =>
    obtain ⟨n, rfl⟩ := Nat.exists_eq_succ_of_ne_zero (Nat.ne_of_gt (h (hfound ▸ rfl)))
    refine (Spares.ok found).bind fun _ => (templateTokens_spares text).bind fun template => ?_
    exact (Spares.mapError_ofCause (substitute_spares _ _ _)).bind fun _ => .ok _

theorem perform_spares {t : Token} {action : Action}
    (h : expands t action r.input = true → 0 < r.expansions) : Spares (r.perform d t action) := by
  cases action with
  | left | right =>
    exact (Spares.mapError_ofCause (delimiter_spares _ _)).bind fun _ => pushNew_spares _ _ _
  | begin | finish =>
    exact (Spares.mapError_ofCause (argument_spares _ _)).bind fun _ => pushNew_spares _ _ _
  | openGroup | closeGroup => exact pushNew_spares _ _ _
  | illegalParameter => exact .ofCause TexCause.noConfusion
  | misused => exact .fault _
  | template text arity =>
    rw [perform]
    rw [expands] at h
    cases hcount : (arity.getD (.integer 0)).count? with
    | none => exact .fault _
    | some n => exact expand_spares (by simpa only [hcount] using h)
  | braket opener closer stretchy limit =>
    rw [perform]
    split
    · split
      · exact pushNew_spares _ _ _
      · exact .ofCause TexCause.noConfusion
    · exact .ofCause TexCause.noConfusion
  | bar => exact bar_spares _
  | _ => exact pushNode_spares _

theorem step_spares {t : Token}
    (h : ∀ action, meaning d.vocabulary t = .ok action → expands t action r.input = true →
      0 < r.expansions) : Spares (r.step d t) := by
  rw [step]
  cases hmeaning : meaning d.vocabulary t with
  | error cause => exact .ofCause fun hc => meaning_spares _ _ (hc ▸ hmeaning)
  | ok action => exact perform_spares (h action hmeaning)

/-! ### Counting expansions -/

/-- Whether the next token has an expansion made. -/
def attempts (d : Dialect) (r : Reader) : Bool :=
  match r.input with
  | [] => false
  | t :: rest =>
    match meaning d.vocabulary t with
    | .ok action => expands t action rest
    | .error _ => false

section

variable {stack : Stack} {t : Token} {rest : List Token} {expansions : Nat}

theorem attempts_cons {action : Action} (h : meaning d.vocabulary t = .ok action) :
    attempts d ⟨stack, t :: rest, expansions⟩ = expands t action rest := by
  simp only [attempts, h]

theorem expands_of_allowed
    (h : attempts d ⟨stack, t :: rest, expansions⟩ = true → 0 < expansions) (action : Action)
    (hmeaning : meaning d.vocabulary t = .ok action) (hexpands : expands t action rest = true) :
    0 < expansions :=
  h ((attempts_cons hmeaning).trans hexpands)

/-- A step that the limit allows goes the same way if more expansions are allowed. -/
theorem step_add (k : Nat)
    (h : attempts d ⟨stack, t :: rest, expansions⟩ = true → 0 < expansions) :
    step d t ⟨stack, rest, expansions + k⟩ = (step d t ⟨stack, rest, expansions⟩).map (more k) :=
  step_more (r := ⟨stack, rest, expansions⟩) k (expands_of_allowed h)

theorem exists_of_attempts (h : attempts d ⟨stack, t :: rest, expansions⟩ = true) :
    ∃ text arity found, step d t ⟨stack, rest, expansions⟩ =
        expand t text arity ⟨stack, rest, expansions⟩ ∧
      arguments t.text arity rest = .ok found := by
  cases hmeaning : meaning d.vocabulary t with
  | error cause => simp [attempts, hmeaning] at h
  | ok action =>
    rw [attempts_cons hmeaning] at h
    have hstep : step d t ⟨stack, rest, expansions⟩ = perform d t action ⟨stack, rest, expansions⟩ := by
      rw [step, hmeaning]
      rfl
    cases action with
    | template text arity =>
      rw [expands] at h
      rw [perform] at hstep
      cases hcount : (arity.getD (.integer 0)).count? with
      | none => simp [hcount] at h
      | some n =>
        simp only [hcount] at h hstep
        cases hfound : arguments t.text n.toNat rest with
        | error cause =>
          rw [hfound] at h
          cases h
        | ok found => exact ⟨text, n.toNat, found, hstep, hfound⟩
    | _ => cases h

/-- Where no expansion is left, a step that would make one fails for that. -/
theorem step_exhausted (h : attempts d ⟨stack, t :: rest, 0⟩ = true) :
    step d t ⟨stack, rest, 0⟩ = .error (.ofCause .tooManyExpansions) := by
  obtain ⟨text, arity, found, hstep, hfound⟩ := exists_of_attempts h
  rw [hstep, expand, hfound]
  rfl

theorem expand_expansions {command : Token} {text : Value} {arity : Nat} {r' : Reader}
    (h : r.expand command text arity = .ok r') : r'.expansions + 1 = r.expansions := by
  obtain ⟨⟨given, input⟩, -, h⟩ := exists_ok_of_bind h
  simp only at h
  split at h
  · cases h
  · rename_i n hn
    obtain ⟨template, -, h⟩ := exists_ok_of_bind h
    obtain ⟨expansion, -, h⟩ := exists_ok_of_bind h
    cases h
    exact hn.symm

/-- A step uses up an expansion just if it makes one. -/
theorem step_count {next : Reader} (h : step d t ⟨stack, rest, expansions⟩ = .ok next) :
    next.expansions + (if attempts d ⟨stack, t :: rest, expansions⟩ then 1 else 0) = expansions := by
  cases hattempts : attempts d ⟨stack, t :: rest, expansions⟩ with
  | false =>
    -- the same step without any expansion at hand can use none
    have hzero : step d t ⟨stack, rest, 0 + expansions⟩ =
        (step d t ⟨stack, rest, 0⟩).map (more expansions) :=
      step_add expansions fun h => absurd (h.symm.trans hattempts) Bool.noConfusion
    rw [Nat.zero_add, h] at hzero
    cases hnext : step d t ⟨stack, rest, 0⟩ with
    | error failure =>
      rw [hnext] at hzero
      cases hzero
    | ok r₀ =>
      rw [hnext] at hzero
      obtain rfl : next = r₀.more expansions := Except.ok.inj hzero
      rcases step_within hnext with hlt | ⟨heq, -⟩
      · exact absurd hlt (Nat.not_lt_zero _)
      · simp [more, heq]
  | true =>
    obtain ⟨text, arity, found, hstep, -⟩ := exists_of_attempts hattempts
    exact expand_expansions (hstep.symm.trans h)

end

/-! ### Runs -/

/-- The reader comes to `last` with `n` expansions, one token after the other. -/
inductive Expands (d : Dialect) : Reader → Nat → Reader → Prop
  | refl (r : Reader) : Expands d r 0 r
  | step {stack : Stack} {t : Token} {rest : List Token} {expansions n : Nat} {next last : Reader}
      (hstep : Reader.step d t ⟨stack, rest, expansions⟩ = .ok next) (later : Expands d next n last) :
      Expands d ⟨stack, t :: rest, expansions⟩
        (n + if attempts d ⟨stack, t :: rest, expansions⟩ then 1 else 0) last

/-- There is no step from here: the input is at its end, or the next token fails. -/
def IsDone (d : Dialect) (r : Reader) : Prop :=
  ∀ t rest, r.input = t :: rest → ∃ failure, Reader.step d t ⟨r.stack, rest, r.expansions⟩ = .error failure

theorem Expands.count {n : Nat} {last : Reader} (h : r.Expands d n last) :
    last.expansions + n = r.expansions := by
  induction h with
  | refl r => rfl
  | step hstep later ih =>
    have := step_count hstep
    simp only
    omega

theorem allowed_of_step {stack : Stack} {t : Token} {rest : List Token} {expansions : Nat}
    {next : Reader} (h : Reader.step d t ⟨stack, rest, expansions⟩ = .ok next)
    (hattempts : attempts d ⟨stack, t :: rest, expansions⟩ = true) : 0 < expansions := by
  have hcount := step_count h
  rw [if_pos hattempts] at hcount
  omega

theorem Expands.more {n : Nat} {last : Reader} (h : r.Expands d n last) (k : Nat) :
    (r.more k).Expands d n (last.more k) := by
  induction h with
  | refl r => exact .refl _
  | @step stack t rest expansions n next last hstep later ih =>
    have hadd := step_add k (allowed_of_step hstep)
    rw [hstep] at hadd
    exact .step hadd ih

/-- What is reached with so many expansions is reached where no more are allowed. -/
theorem Expands.of_more {k n : Nat} {last' : Reader} (h : (r.more k).Expands d n last')
    (hle : n ≤ r.expansions) : ∃ last, last' = last.more k ∧ r.Expands d n last := by
  generalize hs : r.more k = s at h
  induction h generalizing r with
  | refl s => exact ⟨r, hs.symm, .refl r⟩
  | @step stack t rest expansions n next last' hstep later ih =>
    obtain ⟨stack', input, e⟩ := r
    simp only [Reader.more, Reader.mk.injEq] at hs
    obtain ⟨rfl, rfl, rfl⟩ := hs
    have hattempts : attempts d ⟨stack', t :: rest, e + k⟩ = attempts d ⟨stack', t :: rest, e⟩ := rfl
    rw [hattempts] at hle ⊢
    simp only at hle
    have hallowed : attempts d ⟨stack', t :: rest, e⟩ = true → 0 < e := by
      intro h
      rw [if_pos h] at hle
      omega
    rw [step_add k hallowed] at hstep
    cases hnext : Reader.step d t ⟨stack', rest, e⟩ with
    | error failure =>
      rw [hnext] at hstep
      cases hstep
    | ok r₀ =>
      rw [hnext] at hstep
      have hcount := step_count hnext
      obtain ⟨last, hlast, hlater⟩ := ih (r := r₀) (by omega) (Except.ok.inj hstep)
      exact ⟨last, hlast, .step hnext hlater⟩

theorem run_cons (stack : Stack) (t : Token) (rest : List Token) (expansions : Nat) :
    run d ⟨stack, t :: rest, expansions⟩ =
      match Reader.step d t ⟨stack, rest, expansions⟩ with
      | .error failure => .error (failure.locate t.start)
      | .ok next => next.run d := by
  rw [run]
  split <;> simp only [*]

/-- The run in so many steps, if these are enough. -/
def runFor (d : Dialect) : Nat → Reader → Option (Except Failure Reader)
  | 0, _ => none
  | _ + 1, ⟨stack, [], expansions⟩ => some (.ok ⟨stack, [], expansions⟩)
  | fuel + 1, ⟨stack, t :: rest, expansions⟩ =>
    match step d t ⟨stack, rest, expansions⟩ with
    | .error failure => some (.error (failure.locate t.start))
    | .ok next => runFor d fuel next

theorem run_of_runFor {fuel : Nat} {x : Except Failure Reader} (h : runFor d fuel r = some x) :
    r.run d = x := by
  fun_induction runFor d fuel r with
  | case1 => cases h
  | case2 =>
    rw [run]
    exact Option.some.inj h
  | case3 fuel stack t rest expansions failure hstep =>
    rw [run_cons, hstep]
    exact Option.some.inj h
  | case4 fuel stack t rest expansions next hstep ih =>
    rw [run_cons, hstep]
    exact ih h

theorem exists_expands (d : Dialect) (r : Reader) : ∃ n last, r.Expands d n last ∧ last.IsDone d := by
  fun_induction Reader.run d r with
  | case1 stack expansions =>
    refine ⟨0, _, .refl _, fun t rest h => ?_⟩
    cases h
  | case2 stack t rest expansions failure hstep =>
    refine ⟨0, _, .refl _, fun u others h => ?_⟩
    cases h
    exact ⟨failure, hstep⟩
  | case3 stack t rest expansions next hstep _ ih =>
    obtain ⟨n, last, hlater, hdone⟩ := ih
    exact ⟨_, last, .step hstep hlater, hdone⟩

/-- A run fails for the limit just if one expansion more than there are is due. -/
theorem run_exhausted : (∃ offset, r.run d = .error (.tex ⟨.tooManyExpansions, offset⟩)) ↔
    ∃ last, r.Expands d r.expansions last ∧ last.attempts d = true := by
  constructor
  · rintro ⟨offset, h⟩
    fun_induction Reader.run d r with
    | case1 => cases h
    | case2 stack t rest expansions failure hstep =>
      obtain ⟨place, rfl⟩ := Failure.locate_eq (Except.error.inj h)
      have hnot : ¬(attempts d ⟨stack, t :: rest, expansions⟩ = true → 0 < expansions) :=
        fun hallowed => step_spares (r := ⟨stack, rest, expansions⟩) (expands_of_allowed hallowed)
          place hstep
      obtain ⟨hattempts, hzero⟩ := Classical.not_imp.1 hnot
      obtain rfl : expansions = 0 := Nat.eq_zero_of_not_pos hzero
      exact ⟨_, .refl _, hattempts⟩
    | case3 stack t rest expansions next hstep _ ih =>
      obtain ⟨last, hlater, hlast⟩ := ih h
      refine ⟨last, ?_, hlast⟩
      have hsteps := Expands.step hstep hlater
      rwa [step_count hstep] at hsteps
  · rintro ⟨last, h, hlast⟩
    generalize hn : r.expansions = n at h
    induction h with
    | refl r =>
      obtain ⟨stack, input, expansions⟩ := r
      obtain rfl : expansions = 0 := hn
      cases input with
      | nil => cases hlast
      | cons t rest =>
        rw [run_cons, step_exhausted hlast]
        exact ⟨some t.start, rfl⟩
    | @step stack t rest expansions n next last hstep later ih =>
      have hcount := step_count hstep
      rw [run_cons, hstep]
      exact ih hlast (by simp only at hn; omega)

/-- A run that does not fail for the limit goes the same way if more expansions are allowed. -/
theorem run_more (h : Spares (r.run d)) (k : Nat) :
    (r.more k).run d = (r.run d).map (more k) := by
  fun_induction Reader.run d r with
  | case1 => simp only [more, run]; rfl
  | case2 stack t rest expansions failure hstep =>
    have hallowed : attempts d ⟨stack, t :: rest, expansions⟩ = true → 0 < expansions := by
      intro hattempts
      refine Nat.pos_of_ne_zero fun hzero => ?_
      subst hzero
      rw [step_exhausted hattempts] at hstep
      cases hstep
      exact h _ rfl
    rw [more, run_cons, step_add k hallowed, hstep]
    rfl
  | case3 stack t rest expansions next hstep _ ih =>
    rw [more, run_cons, step_add k (allowed_of_step hstep), hstep]
    exact ih h

theorem close_more (length : Nat) (k : Nat) :
    (r.more k).close d length = (r.close d length).map (more k) := by
  rw [close, close, pushNew_more]
  cases r.pushNew d length "stop" [] <;> rfl

theorem close_spares (length : Nat) : Spares (r.close d length) := by
  have h := pushNew_spares (d := d) (r := r) length "stop" []
  rw [close]
  split
  · rename_i failure hfailure
    intro offset heq
    obtain ⟨place, rfl⟩ := Failure.locate_eq (Except.error.inj heq)
    exact h place hfailure
  · exact .ok _

/-- The reader of a text before its first token. -/
def start (d : Dialect) (limit : Nat) (text : String) : Except Failure Reader := do
  let input ← (tokenize text).mapError .tex
  let stack ← Stack.initial d.kinds
  return { stack, input, expansions := limit }

theorem start_spares (limit : Nat) (text : String) : Spares (start d limit text) :=
  (tokenize_spares text).bind fun _ =>
    Spares.bind ((d.kinds.create_spares _ _).bind fun _ => .ok _) fun _ => .ok _

theorem start_add (limit k : Nat) (text : String) :
    start d (limit + k) text = (start d limit text).map (more k) :=
  map_more_bind k fun _ => map_more_bind k fun _ => rfl

theorem outcome_spares : Spares r.outcome := by
  rw [outcome]
  split
  · exact .fault _
  · exact .ok _

/-- What becomes of a reader at the beginning of a text. -/
def answer (d : Dialect) (text : String) (r : Reader) : Except Failure (Option Formula) := do
  let r ← r.run d
  let r ← r.close d text.length
  r.outcome

theorem answer_more {text : String} (h : Spares (r.answer d text)) (k : Nat) :
    (r.more k).answer d text = r.answer d text := by
  have hrun : Spares (r.run d) := by
    rintro offset hrun
    rw [answer, hrun] at h
    exact h offset rfl
  rw [answer, answer, run_more hrun]
  cases r.run d with
  | error failure => rfl
  | ok r =>
    show (r.more k).close d text.length >>= outcome = r.close d text.length >>= outcome
    rw [close_more]
    cases r.close d text.length <;> rfl

theorem answer_exhausted {text : String} :
    (∃ offset, r.answer d text = .error (.tex ⟨.tooManyExpansions, offset⟩)) ↔
      ∃ offset, r.run d = .error (.tex ⟨.tooManyExpansions, offset⟩) := by
  refine exists_congr fun offset => ⟨fun h => ?_, fun h => by rw [answer, h]; rfl⟩
  rw [answer] at h
  cases hrun : r.run d with
  | error failure =>
    rw [hrun] at h
    rw [show failure = _ from Except.error.inj h]
  | ok last =>
    rw [hrun] at h
    exact absurd h ((close_spares _).bind (fun _ => outcome_spares) offset)

end Reader

theorem readTex_eq (d : Dialect) (limit : Nat) (text : String) :
    readTex d limit text = Reader.start d limit text >>= Reader.answer d text := by
  rw [readTex, Reader.start]
  cases (tokenize text).mapError Failure.tex with
  | error failure => rfl
  | ok input =>
    cases Stack.initial d.kinds with
    | error failure => rfl
    | ok stack => rfl

theorem readTex_of_runFor {d : Dialect} (fuel : Nat) {limit : Int} {text : String}
    {tokens : List Token} {stack : Stack} {x : Except Failure Reader}
    (htokens : tokenize text = .ok tokens) (hstack : Stack.initial d.kinds = .ok stack)
    (hrun : Reader.runFor d fuel ⟨stack, tokens, limit.toNat⟩ = some x) :
    readTex d limit text = x >>= fun r => r.close d text.length >>= Reader.outcome := by
  rw [readTex, htokens, hstack]
  show (Reader.run d ⟨stack, tokens, limit.toNat⟩ >>= _) = _
  rw [Reader.run_of_runFor hrun]

/-- Reading a text makes at most as many expansions as are allowed, and comes to an end.  It fails
for the limit just if one expansion more is due after these, also where more are allowed.  If it
does not fail for the limit, it ends in the same way with every larger one. -/
theorem readTex_limit (d : Dialect) (text : String) {m m' : Nat} (hle : m ≤ m') :
    (∀ r, Reader.start d m text = .ok r →
      (∀ n last, r.Expands d n last → n ≤ m) ∧ ∃ n last, r.Expands d n last ∧ last.IsDone d) ∧
    ((∃ offset, readTex d m text = .error (.tex ⟨.tooManyExpansions, offset⟩)) ↔
      ∃ r last, Reader.start d m' text = .ok r ∧ r.Expands d m last ∧ last.attempts d = true) ∧
    ((∀ offset, readTex d m text ≠ .error (.tex ⟨.tooManyExpansions, offset⟩)) →
      readTex d m' text = readTex d m text) := by
  obtain ⟨k, rfl⟩ := Nat.exists_eq_add_of_le hle
  rw [readTex_eq, readTex_eq, Reader.start_add]
  cases hstart : Reader.start d m text with
  | error failure =>
    refine ⟨fun _ h => (by cases h), ⟨?_, ?_⟩, fun _ => rfl⟩
    · rintro ⟨offset, h⟩
      have hfailure : failure = _ := Except.error.inj h
      exact absurd (hfailure ▸ hstart) (Reader.start_spares m text offset)
    · rintro ⟨r, last, h, -⟩
      cases h
  | ok r =>
    have hlimit : r.expansions = m := by
      obtain ⟨input, -, h⟩ := Reader.exists_ok_of_bind hstart
      obtain ⟨stack, -, h⟩ := Reader.exists_ok_of_bind h
      cases h
      rfl
    refine ⟨fun _ h => ?_, ?_, fun h => Reader.answer_more h k⟩
    · cases h
      refine ⟨fun n last hn => ?_, Reader.exists_expands d r⟩
      have := hn.count
      omega
    · refine Reader.answer_exhausted.trans (Reader.run_exhausted.trans ?_)
      rw [hlimit]
      constructor
      · rintro ⟨last, h, hlast⟩
        exact ⟨_, _, rfl, h.more k, hlast⟩
      · rintro ⟨_, last', h, h', hlast⟩
        cases h
        obtain ⟨last, rfl, hlast'⟩ := h'.of_more (Nat.le_of_eq hlimit.symm)
        exact ⟨last, hlast', hlast⟩

/-- A command that comes back to itself, with its argument doubled. -/
def Dialect.growing : Dialect :=
  usual.addLexicon ⟨.command, [("again", .template "\\again\x7b#1#1\x7d" (some (.integer 1)))]⟩

theorem readTex_limit_growing : 2 ≤ 3 ∧
    ((∃ offset, readTex .growing 2 "\\again x" = .error (.tex ⟨.tooManyExpansions, offset⟩)) ↔
      ∃ r last, Reader.start .growing 3 "\\again x" = .ok r ∧ r.Expands .growing 2 last ∧
        last.attempts .growing = true) ∧
    ((∀ offset, readTex .growing 2 "\\again x" ≠ .error (.tex ⟨.tooManyExpansions, offset⟩)) →
      readTex .growing 3 "\\again x" = readTex .growing 2 "\\again x") :=
  ⟨by decide, (readTex_limit .growing "\\again x" (by decide : 2 ≤ 3)).2⟩

end Formulary
