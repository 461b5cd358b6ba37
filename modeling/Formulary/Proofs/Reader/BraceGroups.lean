import Formulary.Proofs.Delimiters.Braces
import Formulary.Proofs.Reader.StackSoundness
import Formulary.Source

/-! # Reading closes every brace

A reader that is given mathematics from between delimiters never misses a closing brace.  The
invariant (`Reader.IsBraced`) ties the stack to the tokens that are left: these close the groups
that are open on the stack and every brace that they open themselves (`Token.AreBraced`).  Each
place where braces are consumed or put back keeps it: a group (`Stack.push_closes`), an argument
(`Reader.argument_closes`) and the expansion of a template (`Reader.expand_closes`). -/

namespace Formulary

/-! ### Errors about braces -/

/-- The cause is a brace that is never closed, or a backslash with nothing after it. -/
def TexCause.isUnclosed : TexCause → Bool
  | missingCloseBrace => true
  | unterminated kind _ => kind = "open" || kind = "braket"
  | unexpectedCharacter c => c = '\\'
  | _ => false

/-- A result that is as `p` says, unless an error stands in its stead that is not about an unclosed
brace. -/
def Closes {α : Type} (p : α → Prop) : Except Failure α → Prop
  | .ok a => p a
  | .error (.tex e) => e.cause.isUnclosed = false
  | .error (.fault _) => True

namespace Closes

variable {α β : Type} {p : α → Prop} {q : β → Prop}

theorem bind {x : Except Failure α} {f : α → Except Failure β} (hx : Closes p x)
    (hf : ∀ a, p a → Closes q (f a)) : Closes q (x >>= f) := by
  match x, hx with
  | .ok a, hx => exact hf a hx
  | .error (.tex _), hx => exact hx
  | .error (.fault _), _ => trivial

theorem mono {p' : α → Prop} {x : Except Failure α} (hx : Closes p x) (h : ∀ a, p a → p' a) :
    Closes p' x := by
  match x, hx with
  | .ok a, hx => exact h a hx
  | .error (.tex _), hx => exact hx
  | .error (.fault _), _ => trivial

theorem and_yields {p' : α → Prop} {x : Except Failure α} (hx : Closes p x) (h : Yields p' x) :
    Closes (fun a => p' a ∧ p a) x := by
  match x, hx, h with
  | .ok _, hx, h => exact ⟨h, hx⟩
  | .error (.tex _), hx, _ => exact hx

theorem mapError_ofCause {x : Except TexCause α}
    (h : ∀ cause, x = .error cause → cause.isUnclosed = false) :
    Closes (fun a => x = .ok a) (x.mapError .ofCause) := by
  cases x with
  | ok a => exact rfl
  | error cause => exact h cause rfl

theorem mapError_tex {x : Except TexError α}
    (h : ∀ e, x = .error e → e.cause.isUnclosed = false) :
    Closes (fun a => x = .ok a) (x.mapError .tex) := by
  cases x with
  | ok a => exact rfl
  | error e => exact h e rfl

theorem locate {failure : Failure} (h : Closes p (.error failure)) (offset : Int) :
    Closes q (.error (failure.locate offset)) := by
  cases failure with
  | tex e => exact h
  | fault f => trivial

end Closes

/-! ### Tokens -/

namespace Token

/-- The tokens close the `depth` braces that are open before them, and those that they open. -/
structure AreBraced (depth : Nat) (tokens : List Token) : Prop where
  braced : ∀ t ∈ tokens, t.IsBraced
  closed : bracesAfter depth tokens = 0

/-- The tokens close exactly the braces that they open. -/
structure AreBalanced (tokens : List Token) : Prop where
  braced : ∀ t ∈ tokens, t.IsBraced
  balanced : ∀ depth, bracesAfter depth tokens = depth

/-- Every brace that is opened among the tokens is closed there. -/
def AreClosed (tokens : List Token) : Prop :=
  ∀ before t rest, tokens = before ++ t :: rest → t.kind = .openBrace →
    ∃ inside close after, rest = inside ++ close :: after ∧ close.kind = .closeBrace ∧
      ∀ depth, bracesAfter depth inside = depth

variable {depth : Nat} {t : Token} {tokens tokens' : List Token}

theorem bracesAfter_append (depth : Nat) (tokens tokens' : List Token) :
    bracesAfter depth (tokens ++ tokens') = bracesAfter (bracesAfter depth tokens) tokens' := by
  induction tokens generalizing depth with
  | nil => rfl
  | cons t rest ih => exact ih _

theorem bracesAfter_of_ne {kind : TokenKind} (hopen : kind ≠ .openBrace)
    (hclose : kind ≠ .closeBrace) (depth : Nat) : kind.bracesAfter depth = depth := by
  cases kind <;> first | rfl | exact absurd rfl hopen | exact absurd rfl hclose

theorem IsBraced.of_text (h : t.IsBraced) (hopen : t.text ≠ "\x7b") (hclose : t.text ≠ "\x7d")
    (depth : Nat) : t.kind.bracesAfter depth = depth :=
  bracesAfter_of_ne (mt h.opens.1 hopen) (mt h.closes.1 hclose) depth

theorem AreBraced.tail (h : AreBraced depth (t :: tokens)) :
    AreBraced (t.kind.bracesAfter depth) tokens :=
  ⟨fun u hu => h.braced u (List.mem_cons_of_mem _ hu), h.closed⟩

theorem AreBraced.head (h : AreBraced depth (t :: tokens)) : t.IsBraced :=
  h.braced t (List.mem_cons_self ..)

theorem AreBalanced.append (h : AreBalanced tokens) (h' : AreBraced depth tokens') :
    AreBraced depth (tokens ++ tokens') :=
  ⟨fun t ht => (List.mem_append.1 ht).elim (h.braced t) (h'.braced t),
    by rw [bracesAfter_append, h.balanced, h'.closed]⟩

end Token

namespace Reader

open Token

theorem groupEnd?_eq_some {depth : Nat} {input inside after : List Token}
    (h : groupEnd? depth input = some (inside, after)) :
    ∃ close, input = inside ++ close :: after ∧ close.kind = .closeBrace ∧
      ∀ n, bracesAfter (n + depth) inside = n := by
  induction input generalizing depth inside after with
  | nil => cases h
  | cons t rest ih =>
    have deeper {d : Nat} (hd : ∀ n, t.kind.bracesAfter (n + depth) = n + d)
        (h : ((groupEnd? d rest).map fun p => (t :: p.1, p.2)) = some (inside, after)) :
        ∃ close, t :: rest = inside ++ close :: after ∧ close.kind = .closeBrace ∧
          ∀ n, bracesAfter (n + depth) inside = n := by
      obtain ⟨⟨inner, last⟩, hfound, heq⟩ := Option.map_eq_some_iff.1 h
      obtain ⟨rfl, rfl⟩ := Prod.mk.inj heq
      obtain ⟨close, rfl, hclose, hdepth⟩ := ih hfound
      exact ⟨close, rfl, hclose, fun n => by rw [bracesAfter, hd, hdepth]⟩
    rw [groupEnd?.eq_def] at h
    simp only at h
    split at h
    · rename_i hclose
      split at h
      · cases h
        exact ⟨t, rfl, hclose, fun n => rfl⟩
      · exact deeper (fun n => by rw [hclose]; rfl) h
    · rename_i hclose
      split at h
      · rename_i hopen
        exact deeper (fun n => by rw [hopen]; rfl) h
      · rename_i hopen
        exact deeper (fun n => bracesAfter_of_ne hopen hclose _) h

/-- A group ends where as many braces have been closed. -/
theorem exists_groupEnd? {n depth : Nat} {input : List Token}
    (h : bracesAfter (n + depth + 1) input ≤ n) : ∃ found, groupEnd? depth input = some found := by
  induction input generalizing depth with
  | nil => exact absurd h (by rw [bracesAfter]; omega)
  | cons t rest ih =>
    rw [bracesAfter] at h
    rw [groupEnd?.eq_def]
    simp only
    split
    · rename_i hclose
      rw [hclose] at h
      cases depth with
      | zero => exact ⟨_, rfl⟩
      | succ d =>
        obtain ⟨found, hfound⟩ := ih h
        exact ⟨_, by simp only [hfound]; rfl⟩
    · rename_i hclose
      split
      · rename_i hopen
        rw [hopen] at h
        obtain ⟨found, hfound⟩ := @ih (depth + 1) h
        exact ⟨_, by rw [hfound]; rfl⟩
      · rename_i hopen
        rw [bracesAfter_of_ne hopen hclose] at h
        obtain ⟨found, hfound⟩ := ih h
        exact ⟨_, by rw [hfound]; rfl⟩

end Reader

/-- Tokens that close what they open and what is open before them close what they open. -/
theorem Token.AreBraced.areClosed {depth : Nat} {tokens : List Token} (h : AreBraced depth tokens) :
    AreClosed tokens := by
  rintro before t rest rfl ht
  have hclosed := h.closed
  rw [bracesAfter_append, bracesAfter, ht] at hclosed
  obtain ⟨⟨inside, after⟩, hfound⟩ :=
    @Reader.exists_groupEnd? (bracesAfter depth before) 0 rest
      ((Nat.le_of_eq hclosed).trans (Nat.zero_le _))
  obtain ⟨close, rfl, hclose, hinside⟩ := Reader.groupEnd?_eq_some hfound
  exact ⟨inside, close, after, rfl, hclose, hinside⟩

namespace Reader

open Token

variable {depth : Nat} {command : String} {input after : List Token}

theorem argument_ok {found : List Token} (h : AreBraced depth input)
    (hfound : argument command input = .ok (found, after)) :
    AreBalanced found ∧ AreBraced depth after := by
  cases input with
  | nil => cases hfound
  | cons t rest =>
    simp only [argument] at hfound
    split at hfound
    · cases hfound
    rename_i hclose
    split at hfound
    · rename_i hopen
      split at hfound
      · rename_i hend
        cases hfound
        obtain ⟨close, rfl, hkind, hinside⟩ := groupEnd?_eq_some hend
        have hmem : ∀ u ∈ found, u ∈ t :: (found ++ close :: after) := fun u hu => by simp [hu]
        have hmem' : ∀ u ∈ after, u ∈ t :: (found ++ close :: after) := fun u hu => by simp [hu]
        have hclosed := h.closed
        have hinside : ∀ n, bracesAfter n found = n := hinside
        rw [bracesAfter, hopen, bracesAfter_append, hinside, bracesAfter, hkind] at hclosed
        exact ⟨⟨fun u hu => h.braced u (hmem u hu), hinside⟩,
          fun u hu => h.braced u (hmem' u hu), hclosed⟩
      · cases hfound
    · rename_i hopen
      cases hfound
      have hdepth := bracesAfter_of_ne hopen hclose
      exact ⟨⟨fun u hu => h.braced u (List.mem_singleton.1 hu ▸ List.mem_cons_self ..), hdepth⟩,
        hdepth depth ▸ h.tail⟩

theorem argument_error {cause : TexCause} (h : AreBraced depth input)
    (herror : argument command input = .error cause) : cause.isUnclosed = false := by
  cases input with
  | nil =>
    cases herror
    rfl
  | cons t rest =>
    simp only [argument] at herror
    split at herror
    · cases herror
      rfl
    · split at herror
      · rename_i hopen
        have hclosed := h.closed
        rw [bracesAfter, hopen] at hclosed
        obtain ⟨found, hfound⟩ :=
          @exists_groupEnd? depth 0 rest ((Nat.le_of_eq hclosed).trans (Nat.zero_le _))
        rw [hfound] at herror
        cases herror
      · cases herror

theorem argument_closes (h : AreBraced depth input) :
    Closes (fun found => AreBalanced found.1 ∧ AreBraced depth found.2)
      ((argument command input).mapError .ofCause) :=
  (Closes.mapError_ofCause fun _ => argument_error h).mono fun _ hfound => argument_ok h hfound

theorem arguments_closes (h : AreBraced depth input) (n : Nat) :
    Closes (fun found => (∀ argument ∈ found.1, AreBalanced argument) ∧ AreBraced depth found.2)
      ((arguments command n input).mapError .ofCause) := by
  induction n generalizing input with
  | zero => exact ⟨fun _ ha => absurd ha List.not_mem_nil, h⟩
  | succ n ih =>
    rw [arguments]
    cases hfirst : argument command input with
    | error cause => exact argument_error h hfirst
    | ok first =>
      obtain ⟨found, rest⟩ := first
      obtain ⟨hfound, hrest⟩ := argument_ok h hfirst
      have hothers := ih hrest
      cases heq : arguments command n rest with
      | error cause =>
        rw [heq] at hothers
        simp only [bind, Except.bind, heq]
        exact hothers
      | ok others =>
        rw [heq] at hothers
        simp only [bind, Except.bind, heq]
        exact ⟨List.forall_mem_cons.2 ⟨hfound, hothers.1⟩, hothers.2⟩

theorem delimiter_closes (h : AreBraced depth input) :
    Closes (fun found => AreBraced depth found.2) ((delimiter command input).mapError .ofCause) := by
  refine (Closes.mapError_ofCause fun cause herror => ?_).mono fun found hfound => ?_
  · cases input with
    | nil =>
      cases herror
      rfl
    | cons t rest =>
      simp only [delimiter] at herror
      split at herror <;> cases herror
      rfl
  · cases input with
    | nil => cases hfound
    | cons t rest =>
      simp only [delimiter] at hfound
      split at hfound
      · rename_i fence hfence
        cases hfound
        have hbrace : ∀ text, Vocabulary.delimiters.get? text = some fence →
            text ≠ "\x7b" ∧ text ≠ "\x7d" := by
          intro text htext
          constructor <;> (rintro rfl; cases htext)
        obtain ⟨hopen, hclose⟩ := hbrace _ hfence
        exact h.head.of_text hopen hclose depth ▸ h.tail
      · cases hfound

theorem mergeBars_braced (single : String) (h : AreBraced depth input) :
    AreBraced depth (mergeBars single input).2 := by
  cases input with
  | nil => exact h
  | cons t rest =>
    rw [mergeBars]
    split
    · rename_i hbar
      have htext : t.text = "|" := by simpa using (Bool.and_eq_true_iff.1 hbar).2
      exact h.head.of_text (by rw [htext]; decide) (by rw [htext]; decide) depth ▸ h.tail
    · exact h

/-- The expansion of a template closes what it opens if the template and the arguments do. -/
theorem substitute_ok {command : Token} {arguments : List (List Token)} {template expansion : List Token}
    (htemplate : ∀ t ∈ template, t.IsBraced) (harguments : ∀ argument ∈ arguments, AreBalanced argument)
    (h : substitute command arguments template = .ok expansion) :
    (∀ t ∈ expansion, t.IsBraced) ∧
      ∀ depth, bracesAfter depth expansion = bracesAfter depth template := by
  induction template generalizing expansion with
  | nil =>
    cases h
    exact ⟨htemplate, fun _ => rfl⟩
  | cons t rest ih =>
    rw [substitute] at h
    split at h
    · rename_i hparameter
      split at h
      · cases h
      · rename_i argument hargument
        obtain ⟨others, hothers, h⟩ := exists_ok_of_bind h
        cases h
        obtain ⟨hbraced, hdepth⟩ := ih (fun u hu => htemplate u (List.mem_cons_of_mem _ hu)) hothers
        have hbalanced := harguments argument (List.mem_of_getElem? hargument)
        refine ⟨fun u hu => (List.mem_append.1 hu).elim (hbalanced.braced u) (hbraced u),
          fun depth => ?_⟩
        rw [bracesAfter_append, hbalanced.balanced, hdepth, bracesAfter, hparameter]
        rfl
    · obtain ⟨others, hothers, h⟩ := exists_ok_of_bind h
      cases h
      obtain ⟨hbraced, hdepth⟩ := ih (fun u hu => htemplate u (List.mem_cons_of_mem _ hu)) hothers
      have ht := htemplate t (List.mem_cons_self ..)
      exact ⟨List.forall_mem_cons.2 ⟨⟨ht.opens, ht.closes⟩, hbraced⟩, fun depth => hdepth _⟩

theorem substitute_error {command : Token} {arguments : List (List Token)} {template : List Token}
    {cause : TexCause} (h : substitute command arguments template = .error cause) :
    cause.isUnclosed = false := by
  induction template with
  | nil => cases h
  | cons t rest ih =>
    rw [substitute] at h
    cases hothers : substitute command arguments rest with
    | error other =>
      rw [hothers] at h
      split at h
      · split at h
        · cases h
          rfl
        · cases h
          exact ih hothers
      · cases h
        exact ih hothers
    | ok others =>
      rw [hothers] at h
      split at h
      · split at h
        · cases h
          rfl
        · cases h
      · cases h

end Reader

/-! ### The stack -/

namespace Frame

/-- How many braces an open frame waits for. -/
def groups (frame : Frame) : Nat := if frame.isKind "open" || frame.isKind "braket" then 1 else 0

/-- How many groups an item ends. -/
def ends (item : Frame) : Nat := if item.isKind "close" then 1 else 0

variable {kinds : FrameKinds} {frame item : Frame}

theorem groups_take (frame item : Frame) : (frame.take item).groups = frame.groups := rfl

theorem groups_eq {kind : FrameKind} (h : frame.kind = kind) :
    frame.groups = if kind.name = "open" || kind.name = "braket" then 1 else 0 := by
  rw [groups, isKind, isKind, h]

theorem ends_eq {kind : FrameKind} (h : item.kind = kind) :
    item.ends = if kind.name = "close" then 1 else 0 := by
  rw [ends, isKind, h]
  simp

theorem IsFinished.groups (h : item.IsFinished) : item.groups = 0 ∧ item.ends = 0 :=
  ⟨groups_eq h.kind, ends_eq h.kind⟩

theorem IsOpen.ends (h : item.IsOpen) : item.ends = 0 := by
  have hkind := h.kind
  simp only [openKinds, List.mem_cons, List.not_mem_nil, or_false] at hkind
  rcases hkind with hk | hk | hk | hk <;> exact ends_eq hk

theorem groups_of_closing (h : item.kind ∈ closingKinds) : item.groups = 0 := by
  simp only [closingKinds, List.map_cons, List.map_nil, List.mem_cons, List.not_mem_nil,
    or_false] at h
  rcases h with hk | hk | hk <;> exact groups_eq hk

/-- What an item does to the groups that are open: it stays and may be one more, is taken up, or
ends the frame, which is a group just if the item ends one. -/
inductive Tallies (frame item : Frame) : Frame × Except Failure Verdict → Prop
  | keep : item.ends = 0 → Tallies frame item (frame, .ok .keep)
  | absorb : item.groups = 0 → item.ends = 0 → Tallies frame item (frame.take item, .ok .absorb)
  | close (after result : Frame) : item.groups = 0 → item.ends = frame.groups →
      result.IsFinished → Tallies frame item (after, .ok (.close result))
  | reject (after : Frame) (e : TexError) : e.cause.isUnclosed = false →
      Tallies frame item (after, .error (.tex e))

theorem Receives.tallies {outcome : Frame × Except Failure Verdict}
    (h : Receives frame item outcome) : Tallies frame item outcome := by
  cases h with
  | keep ho => exact .keep ho.ends
  | absorb hf => exact .absorb hf.groups.1 hf.groups.2
  | @close after f name ending closing named =>
    refine .close after (whole f) (groups_of_closing closing) ?_ ⟨rfl, rfl⟩
    -- a brace ends a group, and nothing else does
    have hends : item.ends = if name = "close" then 1 else 0 := by
      rw [ends_eq rfl, show item.kind.name = name by simpa [isKind] using named]
    have hgroups := groups_eq (rfl : frame.kind = frame.kind)
    rw [hends, hgroups]
    simp only [endings, List.mem_cons, Prod.mk.injEq, List.not_mem_nil, or_false] at ending
    rcases ending with ⟨hkind, rfl⟩ | ⟨hkind, rfl⟩ | ⟨hkind, rfl⟩ | ⟨hkind, rfl⟩ <;>
      (rw [hkind]; rfl)
  | reject => exact .reject _ _ rfl

end Frame

namespace Stack

/-- How many braces the open frames wait for. -/
def groups : Stack → Nat
  | [] => 0
  | frame :: below => frame.groups + groups below

theorem groups_cons (frame : Frame) (below : Stack) :
    groups (frame :: below) = frame.groups + groups below := rfl

/-- A push opens the group that the item is and ends the one that it ends. -/
theorem push_closes {kinds : FrameKinds} (hk : kinds.IsUsual) {stack : Stack} (h : stack.IsSound)
    {item : Frame} (hi : item.IsSound) :
    Closes (fun after => after.groups + item.ends = stack.groups + item.groups)
      (stack.push kinds item).toExcept := by
  have hkeep {item : Frame} {stack : Stack} (hends : item.ends = 0) :
      groups (item :: stack) + item.ends = stack.groups + item.groups := by
    rw [groups_cons]
    omega
  have habsorb {frame item : Frame} {below : Stack} (hgroups : item.groups = 0)
      (hends : item.ends = 0) :
      groups (frame.take item :: below) + item.ends = groups (frame :: below) + item.groups := by
    rw [groups_cons, groups_cons, Frame.groups_take, hgroups, hends]
  induction h generalizing item with
  | @bottom frame hkind hcomplete =>
    have htally : frame.Tallies item (frame.check kinds item) :=
      (Frame.check_start_receives hkind hi).tallies
    rw [push]
    generalize frame.check kinds item = outcome at htally
    cases htally with
    | keep hends => exact hkeep hends
    | absorb hgroups hends => exact habsorb hgroups hends
    | close after result hgroups hends hr =>
      show groups [result] + item.ends = groups [frame] + item.groups
      rw [groups_cons, groups_cons, hr.groups.1, hgroups, hends]
      omega
    | reject after e he => exact he
  | @above frame below ho hbelow ih =>
    have htally := (ho.check_receives hk hi).tallies
    rw [push]
    generalize frame.check kinds item = outcome at htally
    cases htally with
    | keep hends => exact hkeep hends
    | absorb hgroups hends => exact habsorb hgroups hends
    | close after result hgroups hends hr =>
      refine (ih (.finished hr)).mono fun stack' hstack => ?_
      rw [hr.groups.1, hr.groups.2] at hstack
      rw [groups_cons]
      omega
    | reject after e he => exact he

theorem push_endOfText_closes {kinds : FrameKinds} (hk : kinds.IsUsual) {stack : Stack}
    (h : stack.IsSound) (hgroups : stack.groups = 0) (offset : Option Int) :
    Closes (fun _ => True) (stack.push kinds (Frame.endOfText offset)).toExcept := by
  cases h with
  | @bottom frame hkind hcomplete =>
    obtain ⟨item, -, hfinish⟩ := Frame.finish_eq hk hcomplete
    have hcheck : frame.check kinds (Frame.endOfText offset) = (frame, frame.finish kinds) := by
      rw [Frame.check, hkind]
      rfl
    rw [push, hcheck, hfinish]
    exact True.intro
  | @above frame below ho hbelow =>
    have hframe : (if frame.kind.name = "open" || frame.kind.name = "braket" then 1 else 0) = 0 := by
      rw [groups_cons, Frame.groups_eq rfl] at hgroups
      exact (Nat.add_eq_zero_iff.1 hgroups).1
    rw [push, ho.check_endOfText]
    show (frame.kind.name = "open" || frame.kind.name = "braket") = false
    split at hframe
    · cases hframe
    · rename_i hname
      exact Bool.eq_false_iff.2 hname

end Stack

/-! ### Readers -/

/-- A meaning that opens and closes no group by itself.  A template closes the braces that it
opens. -/
def Action.IsFlat : Action → Prop
  | openGroup | closeGroup => False
  | template text _ =>
    ∀ s, text = .text s → ∀ depth, bracesAfter? depth s.toList = some depth
  | _ => True

/-- A meaning that opens and closes no group and is no template. -/
def Action.isPlain : Action → Bool
  | openGroup | closeGroup | template _ _ => false
  | _ => true

theorem Action.isFlat_of_isPlain {action : Action} (h : action.isPlain = true) : action.IsFlat := by
  cases action <;> first | exact True.intro | cases h

theorem isFlat_of_braketCommands {entry : String × Action}
    (h : entry ∈ Vocabulary.braketCommands.entries) : entry.2.IsFlat := by
  have htemplate {s : String} {arity : Option Value}
      (hs : ∀ depth, bracesAfter? depth s.toList = some depth) :
      (Action.template (.text s) arity).IsFlat := by
    intro other hother
    cases hother
    exact hs
  simp only [Vocabulary.braketCommands, List.mem_cons, List.not_mem_nil, or_false] at h
  rcases h with rfl | rfl | rfl | rfl | rfl | rfl | rfl | rfl | rfl | rfl | rfl
  all_goals first
    | exact True.intro
    | exact htemplate fun _ => by simp [bracesAfter?, Delimiters.depthAfter]

theorem usual_lexicons {lexicon : Lexicon} (h : lexicon ∈ Dialect.usual.vocabulary) :
    lexicon = Vocabulary.braketCharacters ∨ lexicon = Vocabulary.braketCommands ∨
      lexicon = Vocabulary.baseCharacters ∨ lexicon = Vocabulary.baseCommands := by
  simpa [Dialect.usual, Dialect.addBraket, Dialect.addLexicon, Dialect.addKind, Dialect.base,
    Vocabulary.base] using h

/-- No command of the usual dialect opens or closes a group by itself. -/
theorem isFlat_of_command {name : String} {action : Action}
    (h : Dialect.usual.vocabulary.find? .command name = some action) : action.IsFlat := by
  obtain ⟨lexicon, hmem, hcategory, hentry⟩ := Vocabulary.mem_of_find? h
  rcases usual_lexicons hmem with rfl | rfl | rfl | rfl
  · cases hcategory
  · exact isFlat_of_braketCommands hentry
  · cases hcategory
  · have hplain : ∀ entry ∈ Vocabulary.baseCommands.entries, entry.2.isPlain = true := by decide
    exact Action.isFlat_of_isPlain (hplain _ hentry)

/-- The characters of the usual dialect that open or close a group are the braces. -/
theorem usual_character {text : String} {action : Action}
    (h : Dialect.usual.vocabulary.find? .character text = some action) :
    (text = "\x7b" ∧ action = .openGroup) ∨ (text = "\x7d" ∧ action = .closeGroup) ∨
      (text ≠ "\x7b" ∧ text ≠ "\x7d" ∧ action.IsFlat) := by
  obtain ⟨lexicon, hmem, hcategory, hentry⟩ := Vocabulary.mem_of_find? h
  rcases usual_lexicons hmem with rfl | rfl | rfl | rfl
  · simp only [Vocabulary.braketCharacters, List.mem_singleton, Prod.mk.injEq] at hentry
    obtain ⟨rfl, rfl⟩ := hentry
    exact .inr (.inr ⟨by decide, by decide, True.intro⟩)
  · cases hcategory
  · simp only [Vocabulary.baseCharacters, List.mem_cons, Prod.mk.injEq, List.not_mem_nil,
      or_false] at hentry
    rcases hentry with ⟨rfl, rfl⟩ | ⟨rfl, rfl⟩ | ⟨rfl, rfl⟩
    · exact .inl ⟨rfl, rfl⟩
    · exact .inr (.inl ⟨rfl, rfl⟩)
    · exact .inr (.inr ⟨by decide, by decide, True.intro⟩)
  · cases hcategory

/-- In the usual dialect the braces mean the beginning and the end of a group, and everything else
is flat. -/
theorem meaning_usual {t : Token} (ht : t.IsBraced) {action : Action}
    (h : Reader.meaning Dialect.usual.vocabulary t = .ok action) :
    (t.kind = .openBrace ∧ action = .openGroup) ∨ (t.kind = .closeBrace ∧ action = .closeGroup) ∨
      (t.kind ≠ .openBrace ∧ t.kind ≠ .closeBrace ∧ action.IsFlat) := by
  rw [Reader.meaning] at h
  split at h
  · rename_i hcommand
    have hkind : t.kind ≠ .openBrace ∧ t.kind ≠ .closeBrace := by
      constructor <;> (intro hkind; simp [Token.isCommand, hkind] at hcommand)
    split at h
    · rename_i found hfind
      cases h
      exact .inr (.inr ⟨hkind.1, hkind.2, isFlat_of_command hfind⟩)
    · cases h
  · split at h
    · rename_i found hfind
      cases h
      rcases usual_character hfind with ⟨htext, haction⟩ | ⟨htext, haction⟩ | ⟨hopen, hclose, hflat⟩
      · exact .inl ⟨ht.opens.2 htext, haction⟩
      · exact .inr (.inl ⟨ht.closes.2 htext, haction⟩)
      · exact .inr (.inr ⟨mt ht.opens.1 hopen, mt ht.closes.1 hclose, hflat⟩)
    · rename_i hfind
      cases h
      refine .inr (.inr ⟨fun hkind => ?_, fun hkind => ?_, ?_⟩)
      · rw [ht.opens.1 hkind] at hfind
        cases hfind
      · rw [ht.closes.1 hkind] at hfind
        cases hfind
      · split <;> exact True.intro

namespace Reader

open Token

/-- The tokens that are left close the groups that are open on the stack, and the braces that they
open themselves. -/
structure IsBraced (r : Reader) : Prop where
  sound : r.IsSound
  tokens : AreBraced r.stack.groups r.input

variable {d : Dialect} {r : Reader}

theorem pushNode_closes (hk : d.kinds.IsUsual) (hr : r.IsBraced) (f : Formula) :
    Closes IsBraced (r.pushNode d f) := by
  have hpush : Closes (fun r' => AreBraced r'.stack.groups r'.input) (r.pushNode d f) := by
    rw [pushNode, Frame.wrap_eq hk]
    refine (Stack.push_closes hk hr.sound (.finished ⟨rfl, rfl⟩)).bind fun stack hstack => ?_
    have hgroups : stack.groups = r.stack.groups := hstack
    show AreBraced stack.groups r.input
    rw [hgroups]
    exact hr.tokens
  exact (hpush.and_yields (pushNode_yields hk hr.sound f)).mono fun _ h => ⟨h.1, h.2⟩

theorem pushNodes_closes (hk : d.kinds.IsUsual) (hr : r.IsBraced) (fs : List Formula) :
    Closes IsBraced (r.pushNodes d fs) := by
  induction fs generalizing r with
  | nil => exact hr
  | cons f rest ih => exact (pushNode_closes hk hr f).bind fun _ hr => ih hr

theorem pushNew_closes (hk : d.kinds.IsUsual) (hr : r.IsSound) (offset : Nat) {kind : FrameKind}
    {properties : Fields Value} (hcreate : d.kinds.create kind.name properties =
      .ok { kind, properties, openedWith := properties })
    (hsound : Frame.IsSoundAnywhere { kind, properties, openedWith := properties })
    (hinput : ∀ groups, groups + Frame.ends { kind } = r.stack.groups + Frame.groups { kind } →
      AreBraced groups r.input) :
    Closes IsBraced (r.pushNew d offset kind.name properties) := by
  have hyields : Yields Frame.IsSoundAnywhere (d.kinds.create kind.name properties) := by
    rw [hcreate]
    exact hsound
  have hpush : Closes (fun r' => AreBraced r'.stack.groups r'.input)
      (r.pushNew d offset kind.name properties) := by
    rw [pushNew, hcreate]
    refine (Stack.push_closes hk hr (hsound _)).bind fun stack hstack => ?_
    exact hinput stack.groups hstack
  exact (hpush.and_yields (pushNew_yields hk hr offset hyields)).mono fun _ h => ⟨h.1, h.2⟩

theorem pushKnown_closes (hk : d.kinds.IsUsual) (hr : r.IsSound) (offset : Nat) {kind : FrameKind}
    (hkind : kind ∈ [FrameKinds.openKind, FrameKinds.leftKind, FrameKinds.beginKind] ++
      Frame.closingKinds) (properties : Fields Value)
    (hinput : ∀ groups, groups + Frame.ends { kind } = r.stack.groups + Frame.groups { kind } →
      AreBraced groups r.input) :
    Closes IsBraced (r.pushNew d offset kind.name properties) := by
  refine pushNew_closes hk hr offset (FrameKinds.create_eq hk hkind properties) ?_ hinput
  rcases List.mem_append.1 hkind with hopen | hclose
  · exact Frame.isSoundAnywhere_new (List.mem_append_left [FrameKinds.braketKind] hopen)
      fun hb => absurd (hb ▸ hopen) (by decide)
  · exact fun _ => .closing hclose

theorem separate_closes (hk : d.kinds.IsUsual) {single : String} {count : Int} {top : Frame}
    {below : Stack} (hr : r.IsBraced) (hstack : r.stack = top :: below) :
    Closes IsBraced (r.separate d single count top below) := by
  have hinput := mergeBars_braced single hr.tokens
  have hsound : Stack.IsSound (top :: below) := hstack ▸ hr.sound
  rw [separate]
  split
  rename_i spelling input hmerge
  rw [hmerge] at hinput
  split
  · rw [hstack] at hinput
    exact pushNodes_closes (r := ⟨_, input, r.expansions⟩) hk
      ⟨hsound.recount (count + 1), hinput⟩ _
  · exact pushNode_closes (r := ⟨_, input, r.expansions⟩) hk ⟨hr.sound, hinput⟩ _

theorem bar_closes (hk : d.kinds.IsUsual) {command : String} (hr : r.IsBraced) :
    Closes IsBraced (r.bar d command) := by
  have hplain := pushNode_closes hk hr (plainBar (if command = "|" then "|" else doubleBar))
  rw [bar]
  split
  · trivial
  · rename_i top below hstack
    split
    · split
      · trivial
      · split
        · trivial
        · exact hplain
        · exact separate_closes hk hr hstack
    · exact hplain

theorem templateTokens_closes {text : Value}
    (h : ∀ s, text = .text s → ∀ depth, bracesAfter? depth s.toList = some depth) :
    Closes AreBalanced (templateTokens text) := by
  cases text with
  | text s =>
    have hs := h s rfl
    refine (Closes.mapError_tex fun e he => ?_).mono fun tokens htokens => ?_
    · obtain ⟨c, hcause, hc⟩ := @tokensFrom_error 0 _ _ he 0 (by rw [hs]; exact Option.some_ne_none 0)
      rw [hcause]
      exact decide_eq_false hc
    · refine ⟨tokensFrom_isBraced htokens, fun depth => ?_⟩
      exact Option.some.inj ((tokensFrom_braces htokens depth).symm.trans (hs depth))
  | _ => trivial

/-- The expansion of a template closes what it opens. -/
theorem expand_closes {command : Token} {text : Value}
    (htext : ∀ s, text = .text s → ∀ depth, bracesAfter? depth s.toList = some depth) (arity : Nat)
    (hr : r.IsBraced) : Closes IsBraced (r.expand command text arity) := by
  refine (arguments_closes hr.tokens arity).bind ?_
  rintro ⟨given, input⟩ ⟨hgiven, hinput⟩
  simp only
  split
  · rfl
  · refine (templateTokens_closes htext).bind fun template htemplate => ?_
    refine (Closes.mapError_ofCause fun _ => substitute_error).bind fun expansion hexpansion => ?_
    obtain ⟨hbraced, hdepth⟩ := substitute_ok htemplate.braced hgiven hexpansion
    have hbalanced : AreBalanced expansion :=
      ⟨hbraced, fun depth => (hdepth depth).trans (htemplate.balanced depth)⟩
    exact ⟨hr.sound, hbalanced.append hinput⟩

/-- Carrying out a flat meaning keeps the braces that are left closed. -/
theorem perform_closes {t : Token} {action : Action} (hsound : action.IsSound)
    (hflat : action.IsFlat) (hr : r.IsBraced) : Closes IsBraced (r.perform .usual t action) := by
  have hk := Dialect.usual_isSound.kinds
  have hpush {kind : FrameKind} (hkind : kind ∈ [FrameKinds.openKind, FrameKinds.leftKind,
      FrameKinds.beginKind] ++ Frame.closingKinds)
      (hflat : Frame.ends { kind } = 0 ∧ Frame.groups { kind } = 0) {input : List Token}
      (hinput : AreBraced r.stack.groups input) (properties : Fields Value) :
      Closes IsBraced (pushNew .usual t.start { r with input } kind.name properties) := by
    refine pushKnown_closes (r := { r with input }) hk hr.sound _ hkind _ fun groups hgroups => ?_
    rw [hflat.1, hflat.2] at hgroups
    exact (show groups = r.stack.groups from hgroups) ▸ hinput
  cases action with
  | openGroup | closeGroup => exact hflat.elim
  | left =>
    exact (delimiter_closes hr.tokens).bind fun found hfound =>
      hpush (by decide : FrameKinds.leftKind ∈ _) (by decide) hfound _
  | right =>
    exact (delimiter_closes hr.tokens).bind fun found hfound =>
      hpush (by decide : { name := "right", isClose := true } ∈ _) (by decide) hfound _
  | begin =>
    exact (argument_closes hr.tokens).bind fun found hfound =>
      hpush (by decide : FrameKinds.beginKind ∈ _) (by decide) hfound.2 _
  | finish =>
    exact (argument_closes hr.tokens).bind fun found hfound =>
      hpush (by decide : { name := "end", isClose := true } ∈ _) (by decide) hfound.2 _
  | template text arity =>
    rw [perform]
    split
    · exact expand_closes hflat _ hr
    · trivial
  | illegalParameter => rfl
  | braket opener closer stretchy limit =>
    rw [perform]
    split
    · split
      · rename_i next input hinput hopen
        have htokens : AreBraced (r.stack.groups + 1) input := by
          have htail := (hinput ▸ hr.tokens).tail
          rwa [hopen] at htail
        refine @pushNew_closes .usual { r with input } hk hr.sound _ FrameKinds.braketKind _ rfl ?_
          fun groups hgroups => ?_
        · exact FrameKinds.create_braket hk (Value.reached?_isSome hsound)
        · exact (show groups = r.stack.groups + 1 from hgroups) ▸ htokens
      · rfl
    · rfl
  | bar => exact bar_closes hk hr
  | misused => trivial
  | _ => exact pushNode_closes hk hr _

theorem step_closes {stack : Stack} {t : Token} {rest : List Token} {expansions : Nat}
    (hr : IsBraced ⟨stack, t :: rest, expansions⟩) :
    Closes IsBraced (step .usual t ⟨stack, rest, expansions⟩) := by
  have hk := Dialect.usual_isSound.kinds
  have hsound : Stack.IsSound stack := hr.sound
  have htail : AreBraced (t.kind.bracesAfter stack.groups) rest := hr.tokens.tail
  refine (Closes.mapError_ofCause fun cause hcause => ?_).bind fun action haction => ?_
  · rw [meaning] at hcause
    split at hcause <;> split at hcause <;> cases hcause
    rfl
  · rcases meaning_usual hr.tokens.head haction with
      ⟨hkind, rfl⟩ | ⟨hkind, rfl⟩ | ⟨hopen, hclose, hflat⟩
    · rw [hkind] at htail
      refine pushKnown_closes (r := ⟨stack, rest, expansions⟩) hk hsound _
        (by decide : FrameKinds.openKind ∈ _) [] ?_
      intro groups hgroups
      exact (show groups = stack.groups + 1 from hgroups) ▸ htail
    · rw [hkind] at htail
      refine pushKnown_closes (r := ⟨stack, rest, expansions⟩) hk hsound _
        (by decide : { name := "close", isClose := true } ∈ _) _ ?_
      intro groups hgroups
      exact (show groups = stack.groups - 1 from
        (Nat.sub_eq_of_eq_add (show stack.groups = groups + 1 from hgroups.symm)).symm) ▸ htail
    · rw [bracesAfter_of_ne hopen hclose] at htail
      exact perform_closes (meaning_sound Dialect.usual_isSound.vocabulary haction) hflat
        ⟨hsound, htail⟩

/-- Reading to the end leaves no group open. -/
theorem run_closes {r : Reader} (hr : r.IsBraced) :
    Closes (fun r' => r'.IsSound ∧ r'.stack.groups = 0) (r.run .usual) := by
  fun_induction Reader.run .usual r with
  | case1 stack expansions => exact ⟨hr.sound, hr.tokens.closed⟩
  | case2 stack t rest expansions failure hstep =>
    have hclosed := step_closes hr
    rw [hstep] at hclosed
    exact Closes.locate hclosed _
  | case3 stack t rest expansions next hstep _ ih =>
    have hclosed := step_closes hr
    rw [hstep] at hclosed
    exact ih hclosed

theorem close_closes {r : Reader} (hr : r.IsSound) (hgroups : r.stack.groups = 0) (length : Nat) :
    Closes (fun _ => True) (r.close .usual length) := by
  have hpush : Closes (fun _ => True)
      (r.stack.push Dialect.usual.kinds (Frame.endOfText (some length))).toExcept :=
    Stack.push_endOfText_closes Dialect.usual_isSound.kinds hr hgroups _
  have hnew : Closes (fun _ => True) (r.pushNew .usual length "stop" []) :=
    hpush.bind fun _ _ => trivial
  rw [close]
  split
  · rename_i failure hfailure
    rw [hfailure] at hnew
    exact hnew.locate _
  · trivial

/-- The reader comes from `start` to this state, one token after the other. -/
inductive Reaches (d : Dialect) (start : Reader) : Reader → Prop
  | refl : Reaches d start start
  | step {stack : Stack} {t : Token} {rest : List Token} {expansions : Nat} {next : Reader}
      (earlier : Reaches d start ⟨stack, t :: rest, expansions⟩)
      (hstep : Reader.step d t ⟨stack, rest, expansions⟩ = .ok next) : Reaches d start next

theorem Reaches.isBraced {start r : Reader} (h : Reaches .usual start r) (hstart : start.IsBraced) :
    r.IsBraced := by
  induction h with
  | refl => exact hstart
  | step _ hstep ih =>
    have hclosed := step_closes ih
    rw [hstep] at hclosed
    exact hclosed

end Reader

/-- The tokens of a text that closes its braces, before any of them is read. -/
theorem Reader.isBraced_start {text : String} (h : bracesAfter? 0 text.toList = some 0)
    {input : List Token} (hinput : tokenize text = .ok input) (expansions : Nat) :
    Reader.IsBraced ⟨[{ kind := FrameKinds.startKind }], input, expansions⟩ where
  sound := .bottom rfl fun _ hf => (List.not_mem_nil hf).elim
  tokens :=
    { braced := Token.tokensFrom_isBraced hinput
      closed := Option.some.inj ((Token.tokensFrom_braces hinput 0).symm.trans h) }

theorem readTex_closes {text : String} (h : bracesAfter? 0 text.toList = some 0) (limit : Int) :
    Closes (fun _ => True) (readTex .usual limit text) := by
  have htokenize : Closes (fun input => tokenize text = .ok input)
      ((tokenize text).mapError .tex) := by
    refine Closes.mapError_tex fun e he => ?_
    obtain ⟨c, hcause, hc⟩ := Token.tokensFrom_error he (by rw [h]; exact Option.some_ne_none 0)
    rw [hcause]
    exact decide_eq_false hc
  refine htokenize.bind fun input hinput => ?_
  show Closes _ (Reader.run .usual _ >>= _)
  refine (Reader.run_closes (Reader.isBraced_start h hinput limit.toNat)).bind fun r hr => ?_
  refine (Reader.close_closes hr.1 hr.2 text.length).bind fun r' _ => ?_
  rw [Reader.outcome]
  split <;> exact True.intro

/-- Compiling a text that closes its braces finds no brace unclosed. -/
theorem Source.tex_compile_closes {text : String} (h : bracesAfter? 0 text.toList = some 0)
    (doc : Document) (display : Bool) :
    Closes (fun _ => True) (Source.tex.compile doc display (.text text)).2 := by
  have hread : Closes (fun _ => True) (Source.tex.read display (.text text)) :=
    (readTex_closes h defaultLimit).bind fun row _ => by cases row <;> exact True.intro
  rw [tex, compile_text]
  exact hread

/-- Mathematics between the usual delimiters closes every brace for the reader, too.  Compiling it
never fails for a missing closing brace, an open group or a lone backslash; among its tokens, and
among those that are left after any of them, whatever templates have been expanded by then, every
brace is closed, and so is every group that is open on the stack. -/
theorem Delimiters.find_closed {strings : List String} {x : Sighting}
    (hx : x ∈ Delimiters.find {} strings) (hopener : x.opener ≠ "") :
    (∀ doc display e, (Source.tex.compile doc display (.text x.math)).2 = .error (.tex e) →
        e.cause ≠ .missingCloseBrace ∧
        (∀ kind opened, e.cause = .unterminated kind opened → kind ≠ "open" ∧ kind ≠ "braket") ∧
        e.cause ≠ .unexpectedCharacter '\\') ∧
      ∀ tokens, tokenize x.math = .ok tokens → Token.AreClosed tokens ∧
        ∀ start r, Stack.initial Dialect.usual.kinds = .ok start →
          Reader.Reaches .usual ⟨start, tokens, defaultLimit.toNat⟩ r →
          Token.AreClosed r.input ∧ Token.bracesAfter r.stack.groups r.input = 0 := by
  have hbraces := find_braces hx hopener
  refine ⟨fun doc display e he => ?_, fun tokens htokens => ?_⟩
  · have hclosed := Source.tex_compile_closes hbraces doc display
    rw [he] at hclosed
    have hcause : e.cause.isUnclosed = false := hclosed
    refine ⟨?_, fun kind opened hkind => ?_, ?_⟩
    · intro h
      rw [h] at hcause
      cases hcause
    · rw [hkind] at hcause
      simpa [TexCause.isUnclosed] using hcause
    · intro h
      rw [h] at hcause
      cases hcause
  · have hstart := Reader.isBraced_start hbraces htokens defaultLimit.toNat
    refine ⟨hstart.tokens.areClosed, fun start r hinitial hreaches => ?_⟩
    obtain rfl : [{ kind := FrameKinds.startKind }] = start := Except.ok.inj hinitial
    have hr := hreaches.isBraced hstart
    exact ⟨hr.tokens.areClosed, hr.tokens.closed⟩

/-- A set with a bra in it. -/
theorem Delimiters.find_closed_set :
    let x : Sighting :=
      { math := "\\set\x7bx|\\bra\x7by\x7d\x7d", opener := "$", closer := "$", string := 0
        start := 0, display := false, stop := 17 }
    x ∈ Delimiters.find {} ["$\\set\x7bx|\\bra\x7by\x7d\x7d$"] ∧ x.opener ≠ "" ∧
      ∀ doc display e, (Source.tex.compile doc display (.text x.math)).2 = .error (.tex e) →
        e.cause ≠ .missingCloseBrace := by
  intro x
  have htext : "$\\set\x7bx|\\bra\x7by\x7d\x7d$".toList =
      '$' :: "\\set\x7bx|\\bra\x7by\x7d\x7d$".toList := rfl
  have hopen : opening? {} ('$' :: "\\set\x7bx|\\bra\x7by\x7d\x7d$".toList) =
      some (.math ['$'] false, 0) := by
    rw [opening?, delimiterAt?, openers_usual]
    rfl
  have hclosing : closing? (.delimiter ['$']) 0 "\\set\x7bx|\\bra\x7by\x7d\x7d$".toList =
      some ⟨x.math.toList, ['$'], []⟩ := by decide +kernel
  have hseen : seen? 0 0 ['$'] "\\set\x7bx|\\bra\x7by\x7d\x7d$".toList (.math ['$'] false) =
      some (x, []) := by
    rw [seen?, hclosing]
    simp [x]
  have hx : x ∈ Delimiters.find {} ["$\\set\x7bx|\\bra\x7by\x7d\x7d$"] := by
    have hscan := Scans.seen hopen hseen (.refl _ [])
    rw [← htext] at hscan
    rw [hscan.find_singleton]
    exact List.mem_singleton_self x
  have hopener : x.opener ≠ "" := by decide
  exact ⟨hx, hopener, fun doc display e he => ((find_closed hx hopener).1 doc display e he).1⟩

end Formulary
