import Formulary.Proofs.Search.Marks

/-! # Lines

The marks of a search, with their text in single characters, are its *signs*, and what is between
two stops is a line (`lines`).  The lines of a container hold its blocks and the elements in it.

An element in the middle of a line is in the piece in front of it (`IsAnchored`): any other element
ends the text before it.  So the text of a line up to an element tells which pieces are before
that (`isAnchored_marksAmong`). -/

namespace Formulary

open Formulary.Tree

/-- A mark with its text in single characters. -/
inductive Sign where
  | char (c : Char)
  | stop
  | element (m : NodeId) (display : Bool)
deriving DecidableEq, Repr, Inhabited

/-- Whether a mark is a stop. -/
def Mark.isStop (k : Mark) : Bool := k = .stop

/-- Whether a sign is a stop. -/
def Sign.isStop (k : Sign) : Bool := k = .stop

namespace Mark

/-- A mark in signs, with pieces told as `tell` says. -/
def retell (tell : Piece → List Sign) : Mark → List Sign
  | piece p => tell p
  | stop => [.stop]
  | element m display => [.element m display]

/-- The piece of a mark. -/
def piece? : Mark → Option Piece
  | piece p => some p
  | _ => none

end Mark

/-- A piece as it is. -/
def Piece.plainly (p : Piece) : List Sign := p.text.toList.map .char

/-- Marks in signs, with every piece as it is. -/
def signs (marks : List Mark) : List Sign := marks.flatMap (Mark.retell Piece.plainly)

@[simp] theorem signs_append (a b : List Mark) : signs (a ++ b) = signs a ++ signs b :=
  List.flatMap_append

@[simp] theorem signs_cons (k : Mark) (rest : List Mark) :
    signs (k :: rest) = k.retell Piece.plainly ++ signs rest := List.flatMap_cons

/-- The pieces among some marks. -/
def piecesOf (marks : List Mark) : Block := marks.filterMap Mark.piece?

@[simp] theorem piecesOf_nil : piecesOf [] = [] := rfl

@[simp] theorem piecesOf_piece_cons (p : Piece) (rest : List Mark) :
    piecesOf (.piece p :: rest) = p :: piecesOf rest := rfl

@[simp] theorem piecesOf_element_cons (m : NodeId) (display : Bool) (rest : List Mark) :
    piecesOf (.element m display :: rest) = piecesOf rest := rfl

@[simp] theorem piecesOf_append (a b : List Mark) : piecesOf (a ++ b) = piecesOf a ++ piecesOf b :=
  List.filterMap_append

theorem length_chars_append_piece (marks : List Mark) (p : Piece) :
    (piecesOf (marks ++ [.piece p])).chars.length =
      (piecesOf marks).chars.length + p.text.toList.length := by simp

theorem mem_placesOf {c : Piece} {marks : List Mark} (h : c ∈ piecesOf marks) :
    c.node ∈ placesOf marks := by
  obtain ⟨k, hk, hpiece⟩ := List.mem_filterMap.1 h
  refine List.mem_filterMap.2 ⟨k, hk, ?_⟩
  cases k with
  | piece p => exact congrArg (some ·.node) (Option.some.inj hpiece)
  | stop => cases hpiece
  | element m display => cases hpiece

/-- The text among some signs. -/
def textOf (line : List Sign) : List Char :=
  line.filterMap fun
    | .char c => some c
    | _ => none

@[simp] theorem textOf_append (a b : List Sign) : textOf (a ++ b) = textOf a ++ textOf b :=
  List.filterMap_append

@[simp] theorem textOf_map_char (s : List Char) : textOf (s.map .char) = s := by
  rw [textOf, List.filterMap_map]
  exact List.filterMap_some

theorem textOf_signs (marks : List Mark) : textOf (signs marks) = (piecesOf marks).chars := by
  induction marks with
  | nil => rfl
  | cons k rest ih =>
    rw [signs_cons, textOf_append, ih]
    cases k with
    | piece p => exact congrArg (· ++ _) (textOf_map_char _)
    | stop => rfl
    | element m display => rfl

/-! ### What is between the stops -/

section

variable {α : Type} {isStop : α → Bool}

/-- What is between the stops of a list, of which `pending` is the line that has begun. -/
def lines (isStop : α → Bool) (pending : List α) : List α → List (List α)
  | [] => [pending]
  | a :: rest =>
    if isStop a then pending :: lines isStop [] rest else lines isStop (pending ++ [a]) rest

theorem lines_append (pending : List α) {before : List α} (h : ∀ a ∈ before, isStop a = false)
    (after : List α) :
    lines isStop pending (before ++ after) = lines isStop (pending ++ before) after := by
  induction before generalizing pending with
  | nil => rw [List.nil_append, List.append_nil]
  | cons a rest ih =>
    rw [List.cons_append, lines, if_neg (by simp [h a (List.mem_cons_self ..)]),
      ih _ fun b hb => h b (List.mem_cons_of_mem _ hb), List.append_assoc, List.singleton_append]

theorem lines_append_stop {stop : α} (hstop : isStop stop = true) (pending before after : List α) :
    lines isStop pending (before ++ stop :: after) =
      lines isStop pending before ++ lines isStop [] after := by
  induction before generalizing pending with
  | nil =>
    rw [List.nil_append, lines, lines, if_pos hstop, List.singleton_append]
  | cons a rest ih =>
    rw [List.cons_append, lines, lines]
    split
    · rw [ih, List.cons_append]
    · exact ih _

theorem isStop_of_mem_lines {pending l line : List α} (hpending : ∀ a ∈ pending, isStop a = false)
    (h : line ∈ lines isStop pending l) : ∀ a ∈ line, isStop a = false := by
  induction l generalizing pending with
  | nil => exact List.mem_singleton.1 h ▸ hpending
  | cons a rest ih =>
    rw [lines] at h
    split at h
    · rcases List.mem_cons.1 h with rfl | h
      · exact hpending
      · exact ih (fun b hb => absurd hb List.not_mem_nil) h
    · rename_i ha
      refine ih (fun b hb => ?_) h
      rcases List.mem_append.1 hb with hb | hb
      · exact hpending b hb
      · rw [List.mem_singleton.1 hb]
        exact Bool.eq_false_iff.2 ha

end

theorem isStop_plainly {p : Piece} : ∀ k ∈ p.plainly, k.isStop = false := fun k hk => by
  obtain ⟨c, -, rfl⟩ := List.mem_map.1 hk
  rfl

theorem lines_signs (pending marks : List Mark) :
    lines Sign.isStop (signs pending) (signs marks) =
      (lines Mark.isStop pending marks).map signs := by
  induction marks generalizing pending with
  | nil => rfl
  | cons k rest ih =>
    rw [signs_cons]
    cases k with
    | piece p =>
      have hpiece : (Mark.piece p).isStop = false := rfl
      rw [Mark.retell, lines_append _ isStop_plainly, lines, if_neg (by simp [hpiece]), ← ih,
        signs_append]
      simp [signs, Mark.retell]
    | stop =>
      have hstop : Sign.stop.isStop = true := rfl
      have hstop' : Mark.stop.isStop = true := rfl
      rw [Mark.retell, List.singleton_append, lines, lines, if_pos hstop, if_pos hstop',
        List.map_cons, ← ih]
      rfl
    | element m display =>
      have hnot : (Sign.element m display).isStop = false := rfl
      have hnot' : (Mark.element m display).isStop = false := rfl
      rw [Mark.retell, List.singleton_append, lines, lines, if_neg (by simp [hnot]),
        if_neg (by simp [hnot']), ← ih, signs_append]
      rfl

theorem lines_nil_signs (marks : List Mark) :
    lines Sign.isStop [] (signs marks) = (lines Mark.isStop [] marks).map signs := lines_signs [] marks

theorem blocksOf_eq (pending marks : List Mark) :
    blocksOf (piecesOf pending) marks = (lines Mark.isStop pending marks).map piecesOf := by
  induction marks generalizing pending with
  | nil => rfl
  | cons k rest ih =>
    cases k with
    | piece p =>
      have hpiece : (Mark.piece p).isStop = false := rfl
      rw [blocksOf, lines, if_neg (by simp [hpiece]), ← ih, piecesOf_append]
      rfl
    | stop =>
      have hstop : Mark.stop.isStop = true := rfl
      rw [blocksOf, lines, if_pos hstop, List.map_cons, ← ih]
      rfl
    | element m display =>
      have hnot : (Mark.element m display).isStop = false := rfl
      rw [blocksOf, lines, if_neg (by simp [hnot]), ← ih, piecesOf_append]
      exact congrArg (blocksOf · rest) (List.append_nil _).symm

/-- What is taken from marks is what is taken from their lines, if nothing is from a stop. -/
theorem filterMap_lines {β : Type} {f : Mark → Option β} (hstop : f .stop = none)
    (pending marks : List Mark) :
    (lines Mark.isStop pending marks).flatMap (List.filterMap f) =
      pending.filterMap f ++ marks.filterMap f := by
  induction marks generalizing pending with
  | nil => rw [lines, List.flatMap_singleton, List.filterMap_nil, List.append_nil]
  | cons k rest ih =>
    rw [lines]
    split
    · rename_i hk
      obtain rfl : k = .stop := of_decide_eq_true hk
      rw [List.flatMap_cons, ih, List.filterMap_cons_none hstop]
      rfl
    · rw [ih, List.filterMap_append, List.append_assoc, ← List.filterMap_append,
        List.singleton_append]

/-- What is told of marks depends on how their lines are told only. -/
theorem flatMap_eq_of_lines {β : Type} {f g : Mark → List β} (hstop : f .stop = g .stop)
    {pending marks : List Mark}
    (h : ∀ line ∈ lines Mark.isStop pending marks, line.flatMap f = line.flatMap g) :
    (pending ++ marks).flatMap f = (pending ++ marks).flatMap g := by
  induction marks generalizing pending with
  | nil =>
    rw [List.append_nil]
    exact h pending (List.mem_singleton_self _)
  | cons k rest ih =>
    rw [lines] at h
    split at h
    · rename_i hk
      obtain rfl : k = .stop := of_decide_eq_true hk
      have hrest := @ih [] fun line hline => h line (List.mem_cons_of_mem _ hline)
      rw [List.nil_append] at hrest
      rw [List.flatMap_append, List.flatMap_append, List.flatMap_cons, List.flatMap_cons, hstop,
        hrest, h pending (List.mem_cons_self ..)]
    · have hrest := ih h
      rwa [List.append_assoc, List.singleton_append] at hrest

/-! ### Elements in the middle of a line -/

/-- Some marks come to a stop before they come to a piece. -/
def IsDry : List Mark → Prop
  | .piece _ :: _ => False
  | .element _ _ :: rest => IsDry rest
  | _ => True

/-- Every element is in the piece in front of it, of which nothing is hidden, or the text of its
line is at an end.  The piece in front of the first mark is `last`. -/
def IsAnchored (hide : NodeId → Bool) (last : Option Piece) : List Mark → Prop
  | [] => True
  | .piece p :: rest => IsAnchored hide (some p) rest
  | .stop :: rest => IsAnchored hide none rest
  | .element _ _ :: rest =>
    ((∃ p ∈ last, hide p.node = false) ∨ IsDry rest) ∧ IsAnchored hide last rest

section

variable {hide : NodeId → Bool} {w : Watch} {last : Option Piece}

theorem AreQuiet.isDry_append {quiet : List Mark} (h : AreQuiet quiet) {marks : List Mark}
    (hdry : IsDry marks) : IsDry (quiet ++ marks) := by
  induction quiet with
  | nil => exact hdry
  | cons k rest ih =>
    obtain ⟨m, display, rfl⟩ := h k (List.mem_cons_self ..)
    exact ih fun k hk => h k (List.mem_cons_of_mem _ hk)

/-- Elements are anchored at the end of a text and in a piece. -/
theorem AreQuiet.isAnchored_append {quiet : List Mark} (h : AreQuiet quiet) {marks : List Mark}
    (hat : (∃ p ∈ last, hide p.node = false) ∨ IsDry marks) (hmarks : IsAnchored hide last marks) :
    IsAnchored hide last (quiet ++ marks) := by
  induction quiet with
  | nil => exact hmarks
  | cons k rest ih =>
    obtain ⟨m, display, rfl⟩ := h k (List.mem_cons_self ..)
    have hrest : AreQuiet rest := fun k hk => h k (List.mem_cons_of_mem _ hk)
    exact ⟨hat.imp_right hrest.isDry_append, ih hrest⟩

/-- What may follow among the children of a place. -/
structure Follows (hide : NodeId → Bool) (w : Watch) (marks : List Mark) : Prop where
  anchored : ∀ last, IsAnchored hide last marks
  dry : w.ignores = true → IsDry marks

theorem follows_stop {marks : List Mark} (h : IsAnchored hide none marks) :
    Follows hide w (.stop :: marks) := ⟨fun _ => h, fun _ => True.intro⟩

theorem follows_marksAmong_of_forall {ts : List Node}
    (h : ∀ t ∈ ts, ∀ marks, Follows hide w marks → Follows hide w (marksIn hide w t ++ marks))
    {marks : List Mark} (hmarks : Follows hide w marks) :
    Follows hide w (marksAmong hide w ts ++ marks) := by
  induction ts with
  | nil => exact hmarks
  | cons t rest ih =>
    rw [marksAmong, List.append_assoc]
    exact h t (List.mem_cons_self ..) _ (ih fun u hu => h u (List.mem_cons_of_mem _ hu))

theorem follows_marksIn (t : Node) (hr : w.reads = true) {marks : List Mark}
    (h : Follows hide w marks) : Follows hide w (marksIn hide w t ++ marks) := by
  induction t using induct generalizing w marks with
  | step t ih =>
    cases hpiece : ({} : Extraction).piece? t with
    | some p =>
      have hinside := areQuiet_ite (p := hide t.label) (@areQuiet_inside hide w _ _ hpiece)
      rw [marksIn_of_piece? hpiece, List.append_assoc]
      cases hi : w.ignores with
      | true =>
        have hdry := h.dry hi
        rw [Watch.before_of_ignored hpiece hi, List.nil_append]
        exact ⟨fun last => hinside.isAnchored_append (.inr hdry) (h.anchored last),
          fun _ => hinside.isDry_append hdry⟩
      | false =>
        rw [Watch.before_of_text hpiece hr hi, List.singleton_append]
        refine ⟨fun last => ?_, fun hignores => absurd (hi.symm.trans hignores) (by decide)⟩
        rw [IsAnchored]
        cases hhide : hide t.label with
        | true => exact h.anchored _
        | false =>
          refine (@areQuiet_inside hide w _ _ hpiece).isAnchored_append (.inl ⟨p, rfl, ?_⟩)
            (h.anchored _)
          rw [Extraction.piece?_node hpiece, hhide]
    | none =>
      have hown := areQuiet_ite (p := hide t.label) (w.areQuiet_own t)
      have hrest : IsAnchored hide none (Mark.stop :: marks) := h.anchored none
      have hinside : IsAnchored hide none
          ((if hide t.label then [] else marksAmong hide (w.inside t) t.children) ++
            .stop :: marks) := by
        split
        · exact hrest
        · cases hr' : (w.inside t).reads with
          | true =>
            exact (follows_marksAmong_of_forall (fun c hc _ hmarks => ih c hc hr' hmarks)
              (follows_stop (h.anchored none))).anchored none
          | false => exact (areQuiet_marksAmong hr' _).isAnchored_append (.inr True.intro) hrest
      rw [marksIn_of_stop hpiece hr, List.append_assoc, List.cons_append, List.append_assoc,
        List.singleton_append]
      exact ⟨fun last => hown.isAnchored_append (.inr True.intro) hinside,
        fun _ => hown.isDry_append True.intro⟩

/-- The elements in a container are anchored. -/
theorem isAnchored_marksAmong (hide : NodeId → Bool) (w : Watch) (ts : List Node) :
    IsAnchored hide none (marksAmong hide w ts) := by
  have hnil : Follows hide w [] := ⟨fun _ => True.intro, fun _ => True.intro⟩
  rw [← List.append_nil (marksAmong hide w ts)]
  cases hr : w.reads with
  | true =>
    exact (follows_marksAmong_of_forall (fun t _ _ hmarks => follows_marksIn t hr hmarks)
      hnil).anchored none
  | false => exact (areQuiet_marksAmong hr ts).isAnchored_append (.inr True.intro) True.intro

end

section

variable {hide : NodeId → Bool}

theorem IsAnchored.hideNone {last : Option Piece} {marks : List Mark}
    (h : IsAnchored hide last marks) : IsAnchored hideNone last marks := by
  induction marks generalizing last with
  | nil => exact True.intro
  | cons k rest ih =>
    cases k with
    | piece p => exact ih h
    | stop => exact ih h
    | element m display => exact ⟨h.1.imp_left fun ⟨p, hp, _⟩ => ⟨p, hp, rfl⟩, ih h.2⟩

theorem IsAnchored.of_append_stop {last : Option Piece} {before after : List Mark}
    (h : IsAnchored hide last (before ++ .stop :: after)) :
    IsAnchored hide last before ∧ IsAnchored hide none after := by
  have hdry : ∀ ks : List Mark, IsDry (ks ++ .stop :: after) → IsDry ks := fun ks => by
    induction ks with
    | nil => exact fun _ => True.intro
    | cons k rest ih =>
      cases k with
      | piece p => exact id
      | stop => exact fun _ => True.intro
      | element m display => exact ih
  induction before generalizing last with
  | nil => exact ⟨True.intro, h⟩
  | cons k rest ih =>
    cases k with
    | piece p => exact ih h
    | stop => exact ih h
    | element m display => exact ⟨⟨h.1.imp_right (hdry rest), (ih h.2).1⟩, (ih h.2).2⟩

theorem IsAnchored.of_mem_lines {pending marks line : List Mark}
    (h : IsAnchored hide none (pending ++ marks)) (hline : line ∈ lines Mark.isStop pending marks) :
    IsAnchored hide none line := by
  induction marks generalizing pending with
  | nil =>
    rw [List.append_nil] at h
    exact List.mem_singleton.1 hline ▸ h
  | cons k rest ih =>
    rw [lines] at hline
    split at hline
    · rename_i hstop
      obtain rfl : k = .stop := of_decide_eq_true hstop
      rcases List.mem_cons.1 hline with rfl | hline
      · exact h.of_append_stop.1
      · exact @ih [] h.of_append_stop.2 hline
    · rw [← List.singleton_append, ← List.append_assoc] at h
      exact ih h hline

/-- What an element in a line has in front of it and behind it. -/
theorem IsAnchored.of_append_element {last : Option Piece} {before after : List Mark} {m : NodeId}
    {display : Bool} (h : IsAnchored hide last (before ++ .element m display :: after))
    (hbefore : ∀ k ∈ before, k.isStop = false) (hafter : ∀ k ∈ after, k.isStop = false) :
    (∃ p ∈ (piecesOf before).getLast?.or last, hide p.node = false) ∨ piecesOf after = [] := by
  induction before generalizing last with
  | nil =>
    refine h.1.imp id fun hdry => ?_
    clear h
    induction after with
    | nil => rfl
    | cons k rest ih =>
      cases k with
      | piece p => exact hdry.elim
      | stop => exact absurd (hafter _ (List.mem_cons_self ..)) (by decide)
      | element m display => exact ih (fun k hk => hafter k (List.mem_cons_of_mem _ hk)) hdry
  | cons k rest ih =>
    have hrest := fun k hk => hbefore k (List.mem_cons_of_mem _ hk)
    cases k with
    | piece p =>
      refine (@ih (some p) h hrest).imp_left ?_
      rintro ⟨q, hq, hhide⟩
      refine ⟨q, ?_, hhide⟩
      rw [piecesOf_piece_cons, List.getLast?_cons]
      cases hlast : (piecesOf rest).getLast? <;> simpa [hlast] using hq
    | stop => exact absurd (hbefore _ (List.mem_cons_self ..)) (by decide)
    | element m display => exact ih h.2 hrest

end

end Formulary
