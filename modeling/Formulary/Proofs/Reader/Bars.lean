import Mathlib.Data.ENat.Lattice
import Formulary.Proofs.Reader.FrameHistory
import Formulary.Proofs.Reader.TakenTokens

/-! # The bars of a bra-ket

A bra-ket or a set has a history (`Reader.Lives`): from the token that opens it on, each token that
is read is a turn (`Turn`), until a brace ends the frame (`Reader.step_braket`).  The account of the
turns (`Turn.Account`) says which of the bars that the frame meets, being on top, separate its
parts. -/

namespace Formulary

/-! ### Bounds -/

/-- How many bars a bound allows. -/
def Value.bound : Value → ℕ∞
  | .infinite => ⊤
  | v => (v.count?.getD 0).toNat

theorem Value.reached?_iff {v : Value} {n : Nat} {b : Bool} (h : v.reached? n = some b) :
    b = true ↔ v.bound ≤ n := by
  cases v with
  | infinite =>
    obtain rfl : false = b := Option.some.inj h
    simp [bound]
  | integer m =>
    obtain rfl : decide (m ≤ (n : Int)) = b := Option.some.inj h
    simp [bound, count?]
  | truth c =>
    obtain rfl : decide ((if c then 1 else 0 : Int) ≤ n) = b := Option.some.inj h
    cases c
    · simp [bound, count?]
    · have hone : (1 : Int) ≤ n ↔ 1 ≤ n := by omega
      simp [bound, count?, hone]
  | text s => cases h
  | absent => cases h

/-! ### Turns -/

/-- What one token does to a frame that stands on the stack. -/
structure Turn where
  token : Token
  /-- Whether the frame is on top when the token is read. -/
  onTop : Bool
  /-- The tokens behind this one when it is read. -/
  rest : List Token
  /-- The tokens that are left when it is carried out. -/
  left : List Token
  /-- The nodes that the frame gains. -/
  gained : List Formula

namespace Turn

/-- The frame meets a bar. -/
def isBar (d : Dialect) (turn : Turn) : Bool :=
  turn.onTop &&
    match Reader.meaning d.vocabulary turn.token with
    | .ok .bar => true
    | _ => false

/-- The spelling of the bar by itself. -/
def single (turn : Turn) : String := if turn.token.text = "|" then "|" else Reader.doubleBar

/-- The nodes of a separator.  One that stretches stands between two empty atoms. -/
def separation (stretchy : Bool) (spelling : String) : List Formula :=
  if stretchy then
    [.node "TeXAtom" [] [] (some .closing),
      .token "mo" spelling [("stretchy", .truth true), ("braketbar", .truth true)] none,
      .node "TeXAtom" [] [] (some .opening)]
  else [.token "mo" spelling [("stretchy", .truth false), ("braketbar", .truth true)] none]

/-- The bar is a separator.  A `|` takes in a `|` that follows it, and no other bar takes in
anything. -/
inductive Separates (stretchy : Bool) (turn : Turn) : Prop
  | merged {next : Token} (text : turn.token.text = "|") (follows : turn.rest = next :: turn.left)
      (textNext : next.text = "|") (gained : turn.gained = separation stretchy Reader.doubleBar)
  | alone (unfollowed : turn.token.text = "|" → ∀ next ∈ turn.rest.head?, next.text ≠ "|")
      (left : turn.left = turn.rest) (gained : turn.gained = separation stretchy turn.single)

/-- The bar separates nothing and stands alone. -/
structure IsPlain (turn : Turn) : Prop where
  left : turn.left = turn.rest
  gained : turn.gained = [.token "mo" turn.single [("stretchy", .truth false)] (some .ord)]

theorem single_eq_bar_iff {turn : Turn} : turn.single = "|" ↔ turn.token.text = "|" := by
  rw [single]
  split
  · simp_all
  · rename_i hne
    exact iff_of_false (by decide) hne

theorem Separates.exists_gained {stretchy : Bool} {turn : Turn} (h : turn.Separates stretchy) :
    ∃ spelling, turn.gained = separation stretchy spelling := by
  cases h with
  | merged _ _ _ gained => exact ⟨_, gained⟩
  | alone _ _ gained => exact ⟨_, gained⟩

/-- What a reader does with the bars at hand is what a separator does. -/
theorem separates_of_mergeBars {stretchy : Bool} {turn : Turn}
    (hleft : turn.left = (Reader.mergeBars turn.single turn.rest).2)
    (hgained : turn.gained = separation stretchy (Reader.mergeBars turn.single turn.rest).1) :
    turn.Separates stretchy := by
  cases hrest : turn.rest with
  | nil =>
    rw [hrest] at hleft hgained
    exact .alone (fun _ => by simp [hrest]) (hleft.trans hrest.symm) hgained
  | cons next rest =>
    rw [hrest, Reader.mergeBars] at hleft hgained
    split at hleft
    · rename_i hmerged
      rw [if_pos hmerged] at hgained
      rw [Bool.and_eq_true, decide_eq_true_eq, decide_eq_true_eq] at hmerged
      exact .merged (single_eq_bar_iff.1 hmerged.1) (hleft ▸ hrest) hmerged.2 hgained
    · rename_i halone
      rw [if_neg halone] at hgained
      rw [Bool.and_eq_true, decide_eq_true_eq, decide_eq_true_eq, not_and] at halone
      refine .alone (fun htext other hother => ?_) (hleft.trans hrest.symm) hgained
      obtain rfl : next = other := by simpa [hrest] using hother
      exact halone (single_eq_bar_iff.2 htext)

/-- How many bars the frame has met. -/
def bars (d : Dialect) (turns : List Turn) : Nat := turns.countP (isBar d)

/-- How many of its bars a frame counts: all of them if it stretches, else none. -/
def counted (d : Dialect) (stretchy : Bool) (turns : List Turn) : Nat :=
  if stretchy then bars d turns else 0

/-- What a turn does to a frame that has counted `count` bars and has counted `count'` of them
after it. -/
inductive Does (d : Dialect) (stretchy : Bool) (bound : ℕ∞) (count count' : Nat) (turn : Turn) :
    Prop
  | meets (isBar : turn.isBar d = true)
      (less : (count : ℕ∞) < bound →
        turn.Separates stretchy ∧ count' = if stretchy then count + 1 else count)
      (reached : bound ≤ count → turn.IsPlain ∧ count' = count)
  | passes (isBar : turn.isBar d = false) (same : count' = count)
      (gained : ∀ f ∈ turn.gained, f.IsUnmarked)

/-- The account of the bars in the history of a frame that has counted `count` of them.  A bar is a
separator as long as fewer are counted than the bound allows, and nothing else is. -/
structure Account (d : Dialect) (stretchy : Bool) (bound : ℕ∞) (turns : List Turn) (count : Nat) :
    Prop where
  count : (count : ℕ∞) = min (counted d stretchy turns : ℕ∞) bound
  bars : ∀ before turn after, turns = before ++ turn :: after → turn.isBar d = true →
    ((counted d stretchy before : ℕ∞) < bound → turn.Separates stretchy) ∧
      (bound ≤ counted d stretchy before → turn.IsPlain)
  others : ∀ turn ∈ turns, turn.isBar d = false → ∀ f ∈ turn.gained, f.IsUnmarked

end Turn

/-! ### A bar that a bra-ket meets -/

/-- The properties of a bra-ket. -/
def Frame.braketProperties (opener closer stretchy barmax : Value) (count : Nat) : Fields Value :=
  [("barmax", barmax), ("barcount", .integer count), ("open", opener), ("close", closer),
    ("stretchy", stretchy)]

/-- A bra-ket as the turns since it was opened have made it, of which `count` were counted. -/
def Frame.madeOf (opened : Frame) (opener closer stretchy barmax : Value) (turns : List Turn)
    (count : Nat) : Frame :=
  { opened with
    properties := braketProperties opener closer stretchy barmax count
    nodes := (turns.flatMap Turn.gained).map some }

namespace Reader

variable {d : Dialect} {t : Token} {frame : Frame} {below : Stack}
  {opener closer stretchy barmax : Value} {count : Nat}

theorem get_braket
    (h : frame.properties = Frame.braketProperties opener closer stretchy barmax count) :
    frame.get "barcount" .absent = .integer count ∧ frame.get "barmax" .absent = barmax ∧
      frame.get "stretchy" .absent = stretchy := by
  simp only [Frame.get, h]
  exact ⟨rfl, rfl, rfl⟩

/-- A separator between the parts of a bra-ket.  It is counted if it stretches. -/
theorem separate_braket (hd : d.IsSound) (hs : Stack.IsSound (frame :: below))
    (hproperties : frame.properties = Frame.braketProperties opener closer stretchy barmax count)
    (single : String) (rest : List Token) (n : Nat) :
    separate d single count frame below ⟨frame :: below, rest, n⟩ =
      .ok ⟨{ frame.gain (Turn.separation stretchy.holds (mergeBars single rest).1) with
        properties := Frame.braketProperties opener closer stretchy barmax
          (if stretchy.holds then count + 1 else count) } :: below,
        (mergeBars single rest).2, n⟩ := by
  obtain ⟨-, -, hstretchy⟩ := get_braket hproperties
  rw [separate, hstretchy]
  dsimp only
  cases stretchy.holds with
  | true =>
    have hcounted : frame.set "barcount" (.integer (count + 1)) = { frame with
        properties := Frame.braketProperties opener closer stretchy barmax (count + 1) } := by
      rw [Frame.set, hproperties]
      rfl
    rw [if_pos rfl, if_pos rfl, pushNodes_top hd.kinds (hs.recount _), hcounted]
    rfl
  | false =>
    rw [if_neg Bool.false_ne_true, if_neg Bool.false_ne_true, pushNode_top hd.kinds hs,
      ← hproperties]
    rfl

theorem step_bar (hd : d.IsSound) (hs : Stack.IsSound (frame :: below))
    (hkind : frame.kind = FrameKinds.braketKind)
    (hproperties : frame.properties = Frame.braketProperties opener closer stretchy barmax count)
    (hmeaning : meaning d.vocabulary t = .ok .bar) (rest : List Token) (n : Nat) :
    ∃ count' gained left, Reader.step d t ⟨frame :: below, rest, n⟩ =
        .ok ⟨{ frame.gain gained with
          properties := Frame.braketProperties opener closer stretchy barmax count' } :: below,
          left, n⟩ ∧
      ((count : ℕ∞) < barmax.bound → Turn.Separates stretchy.holds ⟨t, true, rest, left, gained⟩ ∧
        count' = if stretchy.holds then count + 1 else count) ∧
      (barmax.bound ≤ count → Turn.IsPlain ⟨t, true, rest, left, gained⟩ ∧ count' = count) := by
  have hbraket : frame.isKind "braket" = true := by rw [Frame.isKind, hkind]; rfl
  obtain ⟨hcount, hbarmax, -⟩ := get_braket hproperties
  have hcounts : frame.Counts := by
    cases hs with
    | bottom hstart => exact absurd (hkind.symm.trans hstart) (by decide)
    | above ho => exact ho.counts_of_isKind hbraket
  obtain ⟨reached, hreached⟩ := Option.isSome_iff_exists.1 (hcounts.2 count)
  rw [hbarmax] at hreached
  have hiff := Value.reached?_iff hreached
  have hstep : Reader.step d t ⟨frame :: below, rest, n⟩ =
      bar d t.text ⟨frame :: below, rest, n⟩ := by
    rw [Reader.step, hmeaning]
    rfl
  rw [hstep, bar]
  simp only [hbraket, if_true, hcount, Value.count?, hbarmax, hreached]
  cases reached with
  | true =>
    have hle : barmax.bound ≤ count := hiff.1 rfl
    refine ⟨count, [plainBar (if t.text = "|" then "|" else doubleBar)], rest, ?_,
      fun hlt => absurd hlt (not_lt_of_ge hle), fun _ => ⟨⟨rfl, rfl⟩, rfl⟩⟩
    rw [pushNode_top hd.kinds hs, ← hproperties]
    rfl
  | false =>
    have hlt : (count : ℕ∞) < barmax.bound :=
      lt_of_not_ge fun hle => Bool.false_ne_true (hiff.2 hle)
    exact ⟨_, _, _, separate_braket hd hs hproperties _ rest n, fun _ =>
      ⟨Turn.separates_of_mergeBars rfl rfl, rfl⟩, fun hle => absurd hlt (not_lt_of_ge hle)⟩

theorem isBar_iff {turn : Turn} :
    turn.isBar d = true ↔ turn.onTop = true ∧ meaning d.vocabulary turn.token = .ok .bar := by
  rw [Turn.isBar, Bool.and_eq_true]
  refine and_congr_right fun _ => ⟨fun h => ?_, fun h => by rw [h]⟩
  split at h
  · assumption
  · cases h

/-- What a step does to a bra-ket that stands on the stack: it goes on, or it ends, if it is on
top. -/
theorem step_braket {above : Stack} {rest : List Token} {n : Nat} {next : Reader} (hd : d.IsSound)
    (hs : Stack.IsSound (above ++ frame :: below)) (hkind : frame.kind = FrameKinds.braketKind)
    (hproperties : frame.properties = Frame.braketProperties opener closer stretchy barmax count)
    (hstep : Reader.step d t ⟨above ++ frame :: below, rest, n⟩ = .ok next) :
    (∃ above' gained count', next.stack = above' ++ { frame.gain gained with
        properties := Frame.braketProperties opener closer stretchy barmax count' } :: below ∧
      Turn.Does d stretchy.holds barmax.bound count count'
        ⟨t, above.isEmpty, rest, next.input, gained⟩) ∨
    above = [] ∧ ∃ action kind properties item, meaning d.vocabulary t = .ok action ∧
      action.Pushes t kind properties ∧ d.kinds.create kind properties = .ok item ∧
      Stack.Ends { item with offset := some (item.offset.getD t.start) } (frame :: below)
        next.stack := by
  by_cases hbar : above = [] ∧ meaning d.vocabulary t = .ok .bar
  · obtain ⟨rfl, hmeaning⟩ := hbar
    obtain ⟨count', gained, left, hmeets, hless, hreached⟩ :=
      step_bar hd hs hkind hproperties hmeaning rest n
    rw [List.nil_append, hmeets] at hstep
    obtain rfl := Except.ok.inj hstep
    exact .inl ⟨[], gained, count', rfl, .meets (isBar_iff.2 ⟨rfl, hmeaning⟩) hless hreached⟩
  · rcases step_dwells hd hs (fun habove hmeaning => hbar ⟨habove, hmeaning⟩) hstep with
      ⟨above', gained, hstack, hunmarked⟩ | hends
    · refine .inl ⟨above', gained, count, ?_, .passes ?_ rfl hunmarked⟩
      · rw [hstack, ← hproperties]
        rfl
      · refine Bool.eq_false_iff.2 fun h => ?_
        obtain ⟨hempty, hmeaning⟩ := isBar_iff.1 h
        exact hbar ⟨List.isEmpty_iff.1 hempty, hmeaning⟩
    · exact .inr hends

/-! ### Histories -/

/-- The token `t`, which is come to from `start`, opens the frame `opened` above `below`. -/
def Opens (d : Dialect) (start : Reader) (t : Token) (below : Stack) (opened : Frame)
    (first : Reader) : Prop :=
  ∃ rest n, Reaches d start ⟨below, t :: rest, n⟩ ∧
    Reader.step d t ⟨below, rest, n⟩ = .ok first ∧ first.stack = opened :: below

/-- The history of a frame that was opened above `below`: since the reader was at `first`, these
turns have made `frame` of it, and `above` stands above it. -/
inductive Lives (d : Dialect) (below : Stack) (opened : Frame) (first : Reader) :
    List Turn → Stack → Frame → List Token → Nat → Prop
  | new {input : List Token} {n : Nat} (h : first = ⟨opened :: below, input, n⟩) :
      Lives d below opened first [] [] opened input n
  | turn {turns : List Turn} {above above' : Stack} {frame frame' : Frame} {t : Token}
      {rest left : List Token} {n n' : Nat} {gained : List Formula}
      (earlier : Lives d below opened first turns above frame (t :: rest) n)
      (hstep : Reader.step d t ⟨above ++ frame :: below, rest, n⟩ =
        .ok ⟨above' ++ frame' :: below, left, n'⟩)
      (hgained : frame'.nodes = frame.nodes ++ gained.map some) :
      Lives d below opened first (turns ++ [⟨t, above.isEmpty, rest, left, gained⟩]) above' frame'
        left n'

end Reader

namespace Turn

variable {d : Dialect} {stretchy : Bool} {bound : ℕ∞} {turns : List Turn} {turn : Turn}
  {count : Nat}

theorem counted_append (d : Dialect) (stretchy : Bool) (turns : List Turn) (turn : Turn) :
    counted d stretchy (turns ++ [turn]) =
      counted d stretchy turns + if stretchy && turn.isBar d then 1 else 0 := by
  cases stretchy <;> simp [counted, bars, List.countP_append, List.countP_singleton]

theorem Account.nil (d : Dialect) (stretchy : Bool) (bound : ℕ∞) :
    Account d stretchy bound [] 0 where
  count := by cases stretchy <;> simp [counted, Turn.bars]
  bars := fun before turn after h => by simp at h
  others := fun turn hturn => absurd hturn List.not_mem_nil

theorem split_append {before after : List Turn} {other : Turn}
    (h : turns ++ [turn] = before ++ other :: after) :
    before = turns ∧ other = turn ∨ ∃ after', turns = before ++ other :: after' := by
  rcases List.eq_nil_or_concat after with rfl | ⟨after', last, rfl⟩
  · obtain ⟨hbefore, hlast⟩ := List.append_inj' h rfl
    exact .inl ⟨hbefore.symm, (List.singleton_inj.1 hlast).symm⟩
  · refine .inr ⟨after', ?_⟩
    rw [List.concat_eq_append, ← List.cons_append, ← List.append_assoc] at h
    exact (List.append_inj' h rfl).1

theorem Account.meets {count' : Nat} (h : Account d stretchy bound turns count)
    (hbar : turn.isBar d = true)
    (hless : (count : ℕ∞) < bound →
      turn.Separates stretchy ∧ count' = if stretchy then count + 1 else count)
    (hreached : bound ≤ count → turn.IsPlain ∧ count' = count) :
    Account d stretchy bound (turns ++ [turn]) count' := by
  have hcounted := counted_append d stretchy turns turn
  rw [hbar, Bool.and_true] at hcounted
  have hbelow (hlt : (counted d stretchy turns : ℕ∞) < bound) : (count : ℕ∞) < bound := by
    rw [h.count]
    exact lt_of_le_of_lt (min_le_left _ _) hlt
  have habove (hle : bound ≤ counted d stretchy turns) : bound ≤ (count : ℕ∞) := by
    rw [h.count]
    exact le_min hle le_rfl
  refine ⟨?_, ?_, ?_⟩
  · rw [hcounted]
    rcases lt_or_ge (counted d stretchy turns : ℕ∞) bound with hlt | hle
    · have hcount : count = counted d stretchy turns := by
        have := h.count
        rwa [min_eq_left hlt.le, Nat.cast_inj] at this
      have hnext : ((counted d stretchy turns + 1 : Nat) : ℕ∞) ≤ bound := by
        rw [Nat.cast_add_one]
        exact Order.add_one_le_of_lt hlt
      rw [(hless (hbelow hlt)).2, hcount]
      cases stretchy
      · exact (min_eq_left hlt.le).symm
      · exact (min_eq_left hnext).symm
    · have hcount : (count : ℕ∞) = bound := h.count.trans (min_eq_right hle)
      rw [(hreached (habove hle)).2, hcount, min_eq_right]
      exact hle.trans (Nat.cast_le.2 (Nat.le_add_right _ _))
  · intro before other after hsplit hother
    rcases split_append hsplit with ⟨rfl, rfl⟩ | ⟨after', hsplit⟩
    · exact ⟨fun hlt => (hless (hbelow hlt)).1, fun hle => (hreached (habove hle)).1⟩
    · exact h.bars before other after' hsplit hother
  · intro other hmem hother
    rcases List.mem_append.1 hmem with hmem | hmem
    · exact h.others other hmem hother
    · rw [List.mem_singleton.1 hmem, hbar] at hother
      cases hother

theorem Account.passes (h : Account d stretchy bound turns count) (hbar : turn.isBar d = false)
    (hgained : ∀ f ∈ turn.gained, f.IsUnmarked) :
    Account d stretchy bound (turns ++ [turn]) count := by
  have hcounted := counted_append d stretchy turns turn
  rw [hbar, Bool.and_false, if_neg Bool.false_ne_true, Nat.add_zero] at hcounted
  refine ⟨by rw [hcounted]; exact h.count, ?_, ?_⟩
  · intro before other after hsplit hother
    rcases split_append hsplit with ⟨rfl, rfl⟩ | ⟨after', hsplit⟩
    · exact absurd hother (by rw [hbar]; exact Bool.false_ne_true)
    · exact h.bars before other after' hsplit hother
  · intro other hother
    rcases List.mem_append.1 hother with hother | hother
    · exact h.others other hother
    · rw [List.mem_singleton.1 hother]
      exact fun _ => hgained

theorem Account.next {count' : Nat} (h : Account d stretchy bound turns count)
    (hdoes : turn.Does d stretchy bound count count') :
    Account d stretchy bound (turns ++ [turn]) count' := by
  cases hdoes with
  | meets isBar less reached => exact h.meets isBar less reached
  | passes isBar same gained => exact same ▸ h.passes isBar gained

theorem separation_isSolid (stretchy : Bool) (spelling : String) :
    ∀ f ∈ separation stretchy spelling, f.IsSolid := by
  have htoken (text : Value) (attributes : Fields Value) :
      (Formula.token "mo" text attributes none).IsSolid := by simp [Formula.IsSolid, Formula.token]
  have hatom (texClass : Option TexClass) : (Formula.node "TeXAtom" [] [] texClass).IsSolid := rfl
  cases stretchy <;> simp [separation, htoken, hatom]

/-- Nothing that a bra-ket has gained dissolves in it. -/
theorem Account.isSolid (h : Account d stretchy bound turns count) :
    ∀ f ∈ turns.flatMap gained, f.IsSolid := by
  intro f hf
  obtain ⟨turn, hturn, hf⟩ := List.mem_flatMap.1 hf
  cases hbar : turn.isBar d with
  | false => exact (h.others turn hturn hbar f hf).solid
  | true =>
    obtain ⟨before, after, hsplit⟩ := List.append_of_mem hturn
    obtain ⟨hseparates, hplain⟩ := h.bars before turn after hsplit hbar
    rcases lt_or_ge (counted d stretchy before : ℕ∞) bound with hlt | hle
    · obtain ⟨spelling, hgained⟩ := (hseparates hlt).exists_gained
      rw [hgained] at hf
      exact separation_isSolid _ _ f hf
    · rw [(hplain hle).gained] at hf
      rw [List.mem_singleton.1 hf]
      rfl

end Turn

namespace Reader

variable {d : Dialect} {start first : Reader} {t : Token} {opened frame frame' : Frame}
  {below above above' : Stack} {turns : List Turn} {input : List Token} {n : Nat}
  {opener closer stretchy barmax : Value}

theorem eq_of_append_above (h : above ++ frame :: below = above' ++ frame' :: below) :
    above = above' ∧ frame = frame' := by
  rw [List.append_cons, List.append_cons above'] at h
  obtain ⟨habove, hframe⟩ := List.append_inj' (List.append_cancel_right h) rfl
  exact ⟨habove, List.singleton_inj.1 hframe⟩

/-- A frame that was opened as a bra-ket is at each turn what the account of its bars says. -/
theorem Lives.account (hd : d.IsSound) (hfirst : first.stack.IsSound)
    (hkind : opened.kind = FrameKinds.braketKind) (hnodes : opened.nodes = [])
    (hproperties : opened.properties = Frame.braketProperties opener closer stretchy barmax 0)
    (h : Lives d below opened first turns above frame input n) :
    Stack.IsSound (above ++ frame :: below) ∧
      ∃ count, frame = opened.madeOf opener closer stretchy barmax turns count ∧
        Turn.Account d stretchy.holds barmax.bound turns count := by
  induction h with
  | new h =>
    rw [h] at hfirst
    refine ⟨hfirst, 0, ?_, .nil d _ _⟩
    rw [Frame.madeOf, ← hproperties, List.flatMap_nil, List.map_nil, ← hnodes]
  | @turn turns above above' frame frame' t rest left n n' gained earlier hstep hgained ih =>
    obtain ⟨hs, count, hframe, haccount⟩ := ih
    have hs' : Stack.IsSound (above' ++ frame' :: below) := by
      have hyields := step_yields (r := ⟨above ++ frame :: below, rest, n⟩) hd t hs
      rwa [hstep] at hyields
    refine ⟨hs', ?_⟩
    rcases step_braket hd hs (by rw [hframe]; exact hkind) (by rw [hframe]; rfl) hstep with
      ⟨above'', gained', count', hstack, hdoes⟩ | ⟨-, hends⟩
    · obtain ⟨rfl, hframe'⟩ := eq_of_append_above hstack
      -- What the frame has become tells what it has gained.
      obtain rfl : gained = gained' := by
        rw [hframe'] at hgained
        exact (List.map_injective_iff.2 (Option.some_injective _)
          (List.append_cancel_left hgained)).symm
      refine ⟨count', ?_, haccount.next hdoes⟩
      rw [hframe', hframe]
      simp [Frame.madeOf, Frame.gain]
    · -- A frame that has ended does not stand on what is below.
      obtain ⟨action, kind, properties, item, -, -, -, hends⟩ := hends
      have hlength := hends.length_lt
      simp only [List.length_append, List.length_cons] at hlength
      omega

theorem Opens.exists_braket (hd : d.IsSound) (hstart : start.IsSound)
    (h : Opens d start t below opened first) (hbraket : opened.isKind "braket" = true) :
    first.stack.IsSound ∧ opened.kind = FrameKinds.braketKind ∧ opened.nodes = [] ∧
      ∃ opener closer stretchy barmax,
        meaning d.vocabulary t = .ok (.braket opener closer stretchy barmax) ∧
        opened.properties = Frame.braketProperties opener closer stretchy barmax 0 := by
  obtain ⟨rest, n, hreaches, hstep, hstack⟩ := h
  have hbelow : Stack.IsSound below := hreaches.isSound hd hstart
  have hfirst : first.stack.IsSound := by
    have hyields := step_yields (r := ⟨below, rest, n⟩) hd t hbelow
    rwa [hstep] at hyields
  refine ⟨hfirst, ?_⟩
  obtain ⟨action, hmeaning, hshifts⟩ := step_shifts hd hbelow hstep
  rw [hstack] at hshifts hfirst
  have hkind : opened.kind = FrameKinds.braketKind := by
    cases hfirst with
    | bottom => cases hbelow
    | above ho => exact ho.kind_of_isKind hbraket
  generalize hafter : opened :: below = after at hshifts
  have hlength : after.length = below.length + 1 := by rw [← hafter, List.length_cons]
  cases hshifts with
  | rests | gains | counts => simp at hlength
  | ends _ _ hends =>
    have := hends.length_lt
    omega
  | opens hpushes hcreate =>
    obtain ⟨rfl, -⟩ := List.cons.inj hafter
    obtain ⟨hname, hnodes, hproperties⟩ := FrameKinds.create_new hd.kinds hcreate
    have hname := hname.symm.trans (of_decide_eq_true hbraket)
    cases hpushes with
    | braket opener closer stretchy barmax =>
      exact ⟨hkind, hnodes, opener, closer, stretchy, barmax, hmeaning,
        hproperties⟩
    | _ => exact absurd hname (by decide)

theorem Reaches.run_eq {r : Reader} (h : Reaches d start r) : start.run d = r.run d := by
  induction h with
  | refl => rfl
  | step _ hstep ih => rw [ih, run_of_step hstep]

theorem madeOf_result (hkind : opened.kind = FrameKinds.braketKind) {count : Nat}
    (hsolid : ∀ f ∈ turns.flatMap Turn.gained, f.IsSolid) :
    (opened.madeOf opener closer stretchy barmax turns count).result =
      .ok (some (Opener.fencedRow stretchy.holds opener (turns.flatMap Turn.gained) closer)) := by
  have hends : (Opener.braket (Frame.braketProperties opener closer stretchy barmax count)).endsWith
      .group = true := rfl
  have hresult := Holder.result_endedBy hends opened.offset hsolid
  obtain ⟨kind, properties, openedWith, nodes, offset⟩ := opened
  obtain rfl : kind = FrameKinds.braketKind := hkind
  exact hresult

/-- The history of a bra-ket goes on to a brace that ends it.  What is below gains a row between
fences of all that the bra-ket has gained. -/
def ComesToEnd (d : Dialect) (below : Stack) (opened : Frame) (first : Reader) (stretchy : Bool)
    (opener closer : Value) : Prop :=
  ∃ turns frame t rest n next top under, Lives d below opened first turns [] frame (t :: rest) n ∧
    meaning d.vocabulary t = .ok .closeGroup ∧
    Reader.step d t ⟨frame :: below, rest, n⟩ = .ok next ∧ below = top :: under ∧
    next.stack = top.gain [Opener.fencedRow stretchy opener (turns.flatMap Turn.gained) closer] ::
      under

/-- A bra-ket that is no longer there when a run is over has come to its end. -/
theorem Lives.comesToEnd (hd : d.IsSound) (hfirst : first.stack.IsSound)
    (hkind : opened.kind = FrameKinds.braketKind) (hnodes : opened.nodes = [])
    (hproperties : opened.properties = Frame.braketProperties opener closer stretchy barmax 0)
    (h : Lives d below opened first turns above frame input n) {last : Reader}
    (hrun : Reader.run d ⟨above ++ frame :: below, input, n⟩ = .ok last)
    (hlast : last.stack.length ≤ below.length) :
    ComesToEnd d below opened first stretchy.holds opener closer := by
  generalize hr : (⟨above ++ frame :: below, input, n⟩ : Reader) = r at hrun
  fun_induction Reader.run d r generalizing turns above frame input n with
  | case1 stack expansions =>
    cases hrun
    obtain ⟨rfl, -, -⟩ := Reader.mk.inj hr
    simp only [List.length_append, List.length_cons] at hlast
    omega
  | case2 => cases hrun
  | case3 stack t rest expansions next hstep _ ih =>
    obtain ⟨rfl, rfl, rfl⟩ := Reader.mk.inj hr
    obtain ⟨hs, count, hframe, haccount⟩ := h.account hd hfirst hkind hnodes hproperties
    -- While the frame stands, its history goes on.
    have hstays (above' : Stack) {frame' : Frame} {gained : List Formula}
        (hstack : next.stack = above' ++ frame' :: below)
        (hgained : frame'.nodes = frame.nodes ++ gained.map some) := by
      obtain ⟨stack', left, n'⟩ := next
      obtain rfl : stack' = above' ++ frame' :: below := hstack
      exact ih (h.turn hstep hgained) rfl hrun
    rcases step_braket hd hs (by rw [hframe]; exact hkind) (by rw [hframe]; rfl) hstep with
      ⟨above', gained, count', hstack, -⟩ | ⟨rfl, hends⟩
    · exact hstays above' hstack rfl
    · obtain ⟨action, kind, properties, item, hmeaning, hpushes, hcreate, hends⟩ := hends
      have hbraket : frame.isKind "braket" = true := by
        rw [hframe, Frame.isKind, Frame.madeOf, hkind]
        rfl
      generalize hafter : next.stack = after, hbefore : frame :: below = before at hends
      cases hends with
      | @intro top closed under f deeper hclosedKind hresult hcloses =>
        obtain ⟨rfl, hbelow⟩ := List.cons.inj hbefore
        obtain ⟨rfl, hclose⟩ := hcloses hbraket
        have hname := (FrameKinds.create_new hd.kinds hcreate).1.symm.trans
          (of_decide_eq_true hclose)
        have hgroup : action = .closeGroup := by
          cases hpushes with
          | closeGroup => rfl
          | _ => exact absurd hname (by decide)
        have hbuilt : (opened.madeOf opener closer stretchy barmax turns count).result = _ :=
          madeOf_result hkind haccount.isSolid
        rw [← hframe, hresult] at hbuilt
        obtain rfl := Option.some.inj (Except.ok.inj hbuilt)
        exact ⟨turns, _, t, _, _, next, under, deeper, h, hgroup ▸ hmeaning, hstep, hbelow, hafter⟩

theorem length_of_close (hk : d.kinds.IsUsual) {r last : Reader} (hr : r.IsSound) {length : Nat}
    (h : r.close d length = .ok last) : r.stack.length = 1 := by
  rw [close_eq hk] at h
  obtain ⟨stack, input, n⟩ := r
  cases hr with
  | bottom => rfl
  | above ho =>
    rw [Stack.push, ho.check_endOfText] at h
    cases h

end Reader

/-! ### Texts -/

/-- The fences of a set, which takes one separator, and those of a bra-ket, which takes any
number. -/
def Frame.braketForms : List (Value × Value × Value) :=
  [("\x7b", "\x7d", .integer 1), ("⟨", "⟩", .infinite)]

/-- The meaning opens no bra-ket but those of the packages. -/
def Action.isOfForms : Action → Bool
  | .braket opener closer stretchy barmax =>
    (opener, closer, barmax) ∈ Frame.braketForms && stretchy ∈ [Value.truth true, .truth false]
  | _ => true

section

variable {names : List String} {d : Dialect} {lexicons : List Lexicon} {limit : Int} {text : String}
  {tokens : List Token} {f : Option Formula} {t : Token} {below : Stack} {opened : Frame}
  {first : Reader}

/-- The packages and templates open no bra-ket but those of the forms. -/
theorem Dialect.isOfForms_of_packages (hnames : Dialect.ofPackages names = .ok d)
    (hl : ∀ lexicon ∈ lexicons, lexicon.IsOfTemplates) :
    ∀ lexicon ∈ (d.addLexicons lexicons).vocabulary, ∀ entry ∈ lexicon.entries,
      entry.2.isOfForms = true := by
  have hknown : ∀ lexicon ∈ Dialect.known, ∀ entry ∈ lexicon.entries,
      entry.2.isOfForms = true := by
    decide +kernel
  refine Dialect.forall_of_packages (P := fun action => action.isOfForms = true) hknown hnames
    fun lexicon hlexicon entry hentry => ?_
  obtain ⟨text, arity, heq⟩ := hl lexicon hlexicon entry hentry
  rw [heq]
  rfl

theorem Reader.Opens.exists_run (hd : d.IsSound) (htokens : tokenize text = .ok tokens)
    (hread : readTex d limit text = .ok f)
    (h : Opens d (.fresh tokens limit) t below opened first) :
    ∃ last, first.run d = .ok last ∧ last.stack.length ≤ below.length := by
  have hstart := fresh_isSound tokens limit
  obtain ⟨rest, n, hreaches, hstep, -⟩ := h
  have hbelow : below ≠ [] := by
    have hs : Stack.IsSound below := hreaches.isSound hd hstart
    rintro rfl
    cases hs
  have hfinishes := readTex_finishes hd limit text
  rw [hread] at hfinishes
  obtain ⟨g, -, tokens', stack, last, after, item, htokens', hstack', hrun, -, hclose, -⟩ :=
    hfinishes
  cases htokens.symm.trans htokens'
  have hinitial : Stack.initial d.kinds = .ok [{ kind := FrameKinds.startKind }] := by
    rcases hd.kinds with hk | hk <;> rw [hk] <;> rfl
  obtain rfl := Except.ok.inj (hstack'.symm.trans hinitial)
  refine ⟨last, (hreaches.step hstep).run_eq.symm.trans hrun, ?_⟩
  rw [length_of_close hd.kinds ((reaches_of_run hrun).isSound hd hstart) hclose]
  exact List.length_pos_iff.2 hbelow

/-- A bra-ket of the packages in a text that is read to its end. -/
theorem Reader.Opens.lives (hnames : Dialect.ofPackages names = .ok d)
    (hl : ∀ lexicon ∈ lexicons, lexicon.IsOfTemplates) (htokens : tokenize text = .ok tokens)
    (hread : readTex (d.addLexicons lexicons) limit text = .ok f)
    (hopens : Opens (d.addLexicons lexicons) (.fresh tokens limit) t below opened first)
    (hbraket : opened.isKind "braket" = true) :
    ∃ opener closer stretchy barmax, (opener, closer, barmax) ∈ Frame.braketForms ∧
      opened.get "stretchy" .absent = .truth stretchy ∧
      (∀ turns above frame input n,
        Lives (d.addLexicons lexicons) below opened first turns above frame input n →
        ∃ count, frame = opened.madeOf opener closer (.truth stretchy) barmax turns count ∧
          Turn.Account (d.addLexicons lexicons) stretchy barmax.bound turns count) ∧
      ComesToEnd (d.addLexicons lexicons) below opened first stretchy opener closer := by
  have hsound := Dialect.isSound_of_packages hnames hl
  have hforms := Dialect.isOfForms_of_packages hnames hl
  generalize d.addLexicons lexicons = d at hread hopens hsound hforms
  obtain ⟨hfirst, hkind, hnodes, opener, closer, value, barmax, hmeaning, hproperties⟩ :=
    hopens.exists_braket hsound (fresh_isSound tokens limit) hbraket
  have hform := meaning_keeps (P := fun action => action.isOfForms = true) hforms (by decide)
    hmeaning
  simp only [Action.isOfForms, Bool.and_eq_true, decide_eq_true_eq] at hform
  obtain ⟨stretchy, rfl⟩ : ∃ stretchy, value = .truth stretchy := by
    have := hform.2
    simp only [List.mem_cons, List.not_mem_nil, or_false] at this
    rcases this with rfl | rfl <;> exact ⟨_, rfl⟩
  refine ⟨opener, closer, stretchy, barmax, hform.1, (get_braket hproperties).2.2, ?_, ?_⟩
  · intro turns above frame input n hlives
    exact (hlives.account hsound hfirst hkind hnodes hproperties).2
  · obtain ⟨last, hrun, hlast⟩ := hopens.exists_run hsound htokens hread
    obtain ⟨-, -, -, -, hstack⟩ := hopens
    obtain ⟨stack, input, m⟩ := first
    obtain rfl : stack = opened :: below := hstack
    exact Lives.comesToEnd hsound hfirst hkind hnodes hproperties (.new rfl) hrun hlast

/-- The bars of a stretchy bra-ket or set in a text that is read to its end.  At each turn the frame
is what its turns have made it: the first bars that it meets, as many as its bound allows, are
separators between two empty atoms, the further ones are plain, and it has counted the former. -/
theorem readTex_bars (hnames : Dialect.ofPackages names = .ok d)
    (hl : ∀ lexicon ∈ lexicons, lexicon.IsOfTemplates) (htokens : tokenize text = .ok tokens)
    (hread : readTex (d.addLexicons lexicons) limit text = .ok f)
    (hopens : Reader.Opens (d.addLexicons lexicons) (.fresh tokens limit) t below opened first)
    (hbraket : opened.isKind "braket" = true) (hstretchy : opened.get "stretchy" .absent = .truth true) :
    ∃ opener closer barmax, (opener, closer, barmax) ∈ Frame.braketForms ∧
      (∀ turns above frame input n,
        Reader.Lives (d.addLexicons lexicons) below opened first turns above frame input n →
        ∃ count, frame = opened.madeOf opener closer (.truth true) barmax turns count ∧
          Turn.Account (d.addLexicons lexicons) true barmax.bound turns count) ∧
      Reader.ComesToEnd (d.addLexicons lexicons) below opened first true opener closer := by
  obtain ⟨opener, closer, stretchy, barmax, hform, hget, hlives, hends⟩ :=
    hopens.lives hnames hl htokens hread hbraket
  obtain rfl : stretchy = true := by simpa [hstretchy] using hget.symm
  exact ⟨opener, closer, barmax, hform, hlives, hends⟩

theorem readTex_bars_set :
    let tokens : List Token := [⟨.controlWord, "\\Set", 0⟩, ⟨.openBrace, "\x7b", 4⟩,
      ⟨.letter, "a", 5⟩, ⟨.other, "|", 6⟩, ⟨.other, "|", 7⟩, ⟨.letter, "b", 8⟩, ⟨.other, "|", 9⟩,
      ⟨.closeBrace, "\x7d", 10⟩]
    let properties := Frame.braketProperties "\x7b" "\x7d" (.truth true) (.integer 1) 0
    let opened : Frame :=
      { kind := FrameKinds.braketKind, properties, openedWith := properties, offset := some 0 }
    let below : Stack := [{ kind := FrameKinds.startKind }]
    let first : Reader := ⟨opened :: below, tokens.drop 2, 0⟩
    let f : Formula := Opener.fencedRow true "\x7b"
      (.token "mi" "a" [] none :: Turn.separation true "∥" ++
        [.token "mi" "b" [] none, Reader.plainBar "|"]) "\x7d"
    tokenize "\\Set\x7ba||b|\x7d" = .ok tokens ∧
    readTex .usual 0 "\\Set\x7ba||b|\x7d" = .ok (some f) ∧
    Reader.Opens .usual (.fresh tokens 0) ⟨.controlWord, "\\Set", 0⟩ below opened first ∧
    opened.isKind "braket" = true ∧ opened.get "stretchy" .absent = .truth true ∧
    ∃ opener closer barmax, (opener, closer, barmax) ∈ Frame.braketForms ∧
      (∀ turns above frame input n,
        Reader.Lives .usual below opened first turns above frame input n →
        ∃ count, frame = opened.madeOf opener closer (.truth true) barmax turns count ∧
          Turn.Account .usual true barmax.bound turns count) ∧
      Reader.ComesToEnd .usual below opened first true opener closer := by
  intro tokens properties opened below first f
  have hnames : Dialect.ofPackages ["braket"] = .ok .usual := rfl
  have htokens : tokenize "\\Set\x7ba||b|\x7d" = .ok tokens := by decide +kernel
  have hopens : Reader.Opens .usual (.fresh tokens 0) ⟨.controlWord, "\\Set", 0⟩ below opened
      first := ⟨tokens.drop 1, 0, .refl, rfl, rfl⟩
  have hread : readTex .usual 0 "\\Set\x7ba||b|\x7d" = .ok (some f) := by
    rw [readTex_of_runFor 9 htokens rfl rfl]
    rfl
  have hl : ∀ lexicon ∈ ([] : List Lexicon), lexicon.IsOfTemplates :=
    fun _ h => absurd h List.not_mem_nil
  exact ⟨htokens, hread, hopens, rfl, rfl, readTex_bars hnames hl htokens hread hopens rfl rfl⟩

theorem readTex_set_of_three :
    readTex .usual defaultLimit "\\set\x7ba|b|c\x7d" = .ok (some (Opener.fencedRow false "\x7b"
      [.token "mi" "a" [] none, Reader.separator "|" false, .token "mi" "b" [] none,
        Reader.separator "|" false, .token "mi" "c" [] none] "\x7d")) := by
  have htokens : tokenize "\\set\x7ba|b|c\x7d" = .ok [⟨.controlWord, "\\set", 0⟩,
      ⟨.openBrace, "\x7b", 4⟩, ⟨.letter, "a", 5⟩, ⟨.other, "|", 6⟩, ⟨.letter, "b", 7⟩,
      ⟨.other, "|", 8⟩, ⟨.letter, "c", 9⟩, ⟨.closeBrace, "\x7d", 10⟩] := by
    decide +kernel
  rw [readTex_of_runFor 9 htokens rfl rfl]
  rfl

/-- The bars of a bra-ket or a set that does not stretch: all that it meets are separators, whatever
the bound, and none is counted. -/
theorem readTex_bars_unstretched (hnames : Dialect.ofPackages names = .ok d)
    (hl : ∀ lexicon ∈ lexicons, lexicon.IsOfTemplates) (htokens : tokenize text = .ok tokens)
    (hread : readTex (d.addLexicons lexicons) limit text = .ok f)
    (hopens : Reader.Opens (d.addLexicons lexicons) (.fresh tokens limit) t below opened first)
    (hbraket : opened.isKind "braket" = true) (hstretchy : opened.get "stretchy" .absent = .truth false) :
    ∃ opener closer barmax, (opener, closer, barmax) ∈ Frame.braketForms ∧
      (∀ turns above frame input n,
        Reader.Lives (d.addLexicons lexicons) below opened first turns above frame input n →
        frame = opened.madeOf opener closer (.truth false) barmax turns 0 ∧
        ∀ turn ∈ turns, (turn.isBar (d.addLexicons lexicons) = true → turn.Separates false) ∧
          (turn.isBar (d.addLexicons lexicons) = false → ∀ g ∈ turn.gained, g.IsUnmarked)) ∧
      Reader.ComesToEnd (d.addLexicons lexicons) below opened first false opener closer := by
  obtain ⟨opener, closer, stretchy, barmax, hform, hget, hlives, hends⟩ :=
    hopens.lives hnames hl htokens hread hbraket
  obtain rfl : stretchy = false := by simpa [hstretchy] using hget.symm
  refine ⟨opener, closer, barmax, hform, fun turns above frame input n h => ?_, hends⟩
  obtain ⟨count, hframe, haccount⟩ := hlives turns above frame input n h
  have hbound : 0 < barmax.bound := by
    simp only [Frame.braketForms, List.mem_cons, List.not_mem_nil, or_false, Prod.mk.injEq] at hform
    rcases hform with ⟨-, -, rfl⟩ | ⟨-, -, rfl⟩ <;> simp [Value.bound, Value.count?]
  have hcount : count = 0 := by
    have := haccount.count
    rwa [Turn.counted, if_neg Bool.false_ne_true, Nat.cast_zero, min_eq_left hbound.le,
      Nat.cast_eq_zero] at this
  subst hcount
  refine ⟨hframe, fun turn hturn => ⟨fun hbar => ?_, haccount.others turn hturn⟩⟩
  obtain ⟨before, after, hsplit⟩ := List.append_of_mem hturn
  exact (haccount.bars before turn after hsplit hbar).1 hbound

theorem readTex_bars_unstretched_set :
    let tokens : List Token := [⟨.controlWord, "\\set", 0⟩, ⟨.openBrace, "\x7b", 4⟩,
      ⟨.letter, "a", 5⟩, ⟨.other, "|", 6⟩, ⟨.letter, "b", 7⟩, ⟨.other, "|", 8⟩, ⟨.letter, "c", 9⟩,
      ⟨.closeBrace, "\x7d", 10⟩]
    let properties := Frame.braketProperties "\x7b" "\x7d" (.truth false) (.integer 1) 0
    let opened : Frame :=
      { kind := FrameKinds.braketKind, properties, openedWith := properties, offset := some 0 }
    let below : Stack := [{ kind := FrameKinds.startKind }]
    let first : Reader := ⟨opened :: below, tokens.drop 2, 10000⟩
    tokenize "\\set\x7ba|b|c\x7d" = .ok tokens ∧
    (∃ f, readTex .usual defaultLimit "\\set\x7ba|b|c\x7d" = .ok (some f)) ∧
    Reader.Opens .usual (.fresh tokens defaultLimit) ⟨.controlWord, "\\set", 0⟩ below opened first ∧
    opened.isKind "braket" = true ∧ opened.get "stretchy" .absent = .truth false ∧
    ∃ opener closer barmax, (opener, closer, barmax) ∈ Frame.braketForms ∧
      (∀ turns above frame input n,
        Reader.Lives .usual below opened first turns above frame input n →
        frame = opened.madeOf opener closer (.truth false) barmax turns 0 ∧
        ∀ turn ∈ turns, (turn.isBar .usual = true → turn.Separates false) ∧
          (turn.isBar .usual = false → ∀ g ∈ turn.gained, g.IsUnmarked)) ∧
      Reader.ComesToEnd .usual below opened first false opener closer := by
  intro tokens properties opened below first
  have hnames : Dialect.ofPackages ["braket"] = .ok .usual := rfl
  have htokens : tokenize "\\set\x7ba|b|c\x7d" = .ok tokens := by decide +kernel
  have hopens : Reader.Opens .usual (.fresh tokens defaultLimit) ⟨.controlWord, "\\set", 0⟩ below
      opened first := ⟨tokens.drop 1, _, .refl, rfl, rfl⟩
  have hread := readTex_set_of_three
  have hl : ∀ lexicon ∈ ([] : List Lexicon), lexicon.IsOfTemplates :=
    fun _ h => absurd h List.not_mem_nil
  exact ⟨htokens, ⟨_, hread⟩, hopens, rfl, rfl,
    readTex_bars_unstretched hnames hl htokens hread hopens rfl rfl⟩

/-- A set takes one separator, and has two here. -/
theorem readTex_set_overfull :
    Reader.meaning Dialect.usual.vocabulary ⟨.controlWord, "\\set", 0⟩ =
      .ok (.braket "\x7b" "\x7d" (.truth false) (.integer 1)) ∧
    ∃ f, readTex .usual defaultLimit "\\set\x7ba|b|c\x7d" = .ok (some f) ∧
      (f.children.filter fun g => g.attributes.get? "braketbar" = some (.truth true)).length = 2 := by
  refine ⟨rfl, _, readTex_set_of_three, ?_⟩
  simp [Opener.fencedRow, Reader.separator, Formula.token, Formula.fence, Fields.get?]

end

end Formulary
