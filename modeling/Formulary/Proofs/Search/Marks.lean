import Formulary.Proofs.Discovery.Candidates

/-! # What a search notes on its way through a tree

A session looks at a container in two ways: it reads the blocks of its text, and it looks for
elements that are mathematics.  Both come from one list of marks in document order (`marksIn`): a
piece of a block, the end of a block, or an element.  The blocks of a container are what is between
the stops (`find_eq_blocksOf`), and its elements are the marks of elements
(`elementsOf_marksAmong`).  An element is noted before the stop that it makes, so nothing is between
it and the text before it.

The elements for which `hide` holds are passed over with all that is in them, which is how typeset
mathematics looks from outside. -/

namespace Formulary

open Formulary.Tree

/-- What a search takes note of. -/
inductive Mark where
  /-- A piece of a block. -/
  | piece (p : Piece)
  /-- The end of a block. -/
  | stop
  /-- An element that is mathematics. -/
  | element (m : NodeId) (display : Bool)
deriving DecidableEq, Repr, Inhabited

/-- What a search watches for among the children of an element. -/
structure Watch where
  /-- Whether blocks are read. -/
  reads : Bool
  /-- Whether the text here is left out of them. -/
  ignores : Bool
  /-- Whether elements are sought. -/
  seeks : Bool
deriving DecidableEq, Repr, Inhabited

namespace Watch

/-- What is watched for in an element. -/
def inside (w : Watch) : Node → Watch
  | .string _ _ _ => w
  | .element label tag attributes children => {
      reads := w.reads &&
        ((({} : Extraction).piece? (.element label tag attributes children)).isNone &&
          ({} : Extraction).enters tag attributes)
      ignores := ({} : Extraction).ignores attributes w.ignores
      seeks := w.seeks && tag ≠ "math" }

/-- The marks at the beginning of a place, its own one apart. -/
def before (w : Watch) (node : Node) : List Mark :=
  match ({} : Extraction).piece? node with
  | some p => if w.reads && !w.ignores then [.piece p] else []
  | none => if w.reads then [.stop] else []

/-- The mark of an element that is mathematics. -/
def own (w : Watch) : Node → List Mark
  | .string _ _ _ => []
  | .element label tag attributes children =>
    if w.seeks && (tag = "math" && (attributes.get? Formula.typesetMark).isNone) then
      [.element label (Source.isDisplay (.element label tag attributes children))]
    else []

/-- The marks at the end of a place. -/
def after (w : Watch) (node : Node) : List Mark :=
  if w.reads && (({} : Extraction).piece? node).isNone then [.stop] else []

variable {w : Watch} {t : Node} {p : Piece}

theorem before_of_text (hpiece : ({} : Extraction).piece? t = some p) (hr : w.reads = true)
    (hi : w.ignores = false) : w.before t = [.piece p] := by
  rw [before, hpiece, hr, hi]
  rfl

theorem before_of_ignored (hpiece : ({} : Extraction).piece? t = some p)
    (hi : w.ignores = true) : w.before t = [] := by
  rw [before, hpiece, hi, Bool.not_true, Bool.and_false]
  rfl

theorem before_of_stop (hpiece : ({} : Extraction).piece? t = none) (hr : w.reads = true) :
    w.before t = [.stop] := by
  rw [before, hpiece, hr]
  rfl

theorem before_of_unread (hr : w.reads = false) : w.before t = [] := by
  rw [before, hr]
  split <;> rfl

theorem own_of_piece? (w : Watch) (hpiece : ({} : Extraction).piece? t = some p) : w.own t = [] := by
  cases t with
  | string => rfl
  | element label tag attributes children =>
    have htag : tag ≠ "math" := by
      rintro rfl
      rw [piece?_of_kind_eq rfl] at hpiece
      cases hpiece
    simp [own, htag]

theorem after_of_piece? (hpiece : ({} : Extraction).piece? t = some p) : w.after t = [] := by
  rw [after, hpiece, Option.isNone_some, Bool.and_false]
  rfl

theorem after_of_stop (hpiece : ({} : Extraction).piece? t = none) (hr : w.reads = true) :
    w.after t = [.stop] := by
  rw [after, hpiece, hr]
  rfl

theorem after_of_unread (hr : w.reads = false) : w.after t = [] := by
  rw [after, hr]
  rfl

end Watch

mutual

/-- The marks of a place. -/
def marksIn (hide : NodeId → Bool) (w : Watch) : Node → List Mark
  | .string label kind value =>
    w.before (.string label kind value) ++ w.after (.string label kind value)
  | .element label tag attributes children =>
    let node : Node := .element label tag attributes children
    (if hide label then [] else w.own node) ++ w.before node ++
      (if hide label then [] else marksAmong hide (w.inside node) children) ++ w.after node

/-- The marks of some siblings. -/
def marksAmong (hide : NodeId → Bool) (w : Watch) : List Node → List Mark
  | [] => []
  | t :: rest => marksIn hide w t ++ marksAmong hide w rest

end

section

variable {hide : NodeId → Bool} {w : Watch}

theorem marksIn_eq (t : Node) : marksIn hide w t =
    (if hide t.label then [] else w.own t) ++ w.before t ++
      (if hide t.label then [] else marksAmong hide (w.inside t) t.children) ++ w.after t := by
  cases t with
  | string label kind value =>
    rw [marksIn, children, marksAmong, Watch.own, ite_self, List.nil_append, List.append_nil]
  | element label tag attributes children =>
    rw [marksIn]
    rfl

theorem marksIn_of_piece? {t : Node} {p : Piece}
    (hpiece : ({} : Extraction).piece? t = some p) : marksIn hide w t =
      w.before t ++ if hide t.label then [] else marksAmong hide (w.inside t) t.children := by
  rw [marksIn_eq, w.own_of_piece? hpiece, Watch.after_of_piece? hpiece, ite_self, List.nil_append,
    List.append_nil]

theorem marksIn_of_stop {t : Node} (hpiece : ({} : Extraction).piece? t = none)
    (hr : w.reads = true) : marksIn hide w t =
      (if hide t.label then [] else w.own t) ++ .stop ::
        ((if hide t.label then [] else marksAmong hide (w.inside t) t.children) ++ [.stop]) := by
  rw [marksIn_eq, Watch.before_of_stop hpiece hr, Watch.after_of_stop hpiece hr, List.append_assoc,
    List.append_assoc, List.singleton_append]

theorem marksAmong_eq_flatMap (ts : List Node) :
    marksAmong hide w ts = ts.flatMap (marksIn hide w) := by
  induction ts with
  | nil => rfl
  | cons t rest ih => rw [marksAmong, ih, List.flatMap_cons]

/-! ### Blocks -/

/-- The blocks between the stops, of which `pending` is the one that has begun. -/
def blocksOf (pending : Block) : List Mark → List Block
  | [] => [pending]
  | .piece p :: rest => blocksOf (pending ++ [p]) rest
  | .stop :: rest => pending :: blocksOf [] rest
  | .element _ _ :: rest => blocksOf pending rest

theorem blocksOf_append_stop (pending : Block) (before after : List Mark) :
    blocksOf pending (before ++ .stop :: after) = blocksOf pending before ++ blocksOf [] after := by
  induction before generalizing pending with
  | nil => rfl
  | cons k rest ih =>
    cases k with
    | piece p => exact ih _
    | stop => exact congrArg (pending :: ·) (ih [])
    | element m display => exact ih _

/-- Marks that are no text. -/
def AreQuiet (marks : List Mark) : Prop := ∀ k ∈ marks, ∃ m display, k = .element m display

theorem AreQuiet.append {a b : List Mark} (ha : AreQuiet a) (hb : AreQuiet b) : AreQuiet (a ++ b) :=
  fun k hk => (List.mem_append.1 hk).elim (ha k) (hb k)

theorem areQuiet_ite {p : Bool} {marks : List Mark} (h : AreQuiet marks) :
    AreQuiet (if p then [] else marks) := by
  split
  · exact fun k hk => absurd hk List.not_mem_nil
  · exact h

theorem AreQuiet.blocksOf_append {quiet : List Mark} (h : AreQuiet quiet) (pending : Block)
    (marks : List Mark) : blocksOf pending (quiet ++ marks) = blocksOf pending marks := by
  induction quiet with
  | nil => rfl
  | cons k rest ih =>
    obtain ⟨m, display, rfl⟩ := h k (List.mem_cons_self ..)
    exact ih fun k hk => h k (List.mem_cons_of_mem _ hk)

theorem Watch.areQuiet_own (w : Watch) (t : Node) : AreQuiet (w.own t) := by
  intro k hk
  cases t with
  | string => cases hk
  | element label tag attributes children =>
    rw [Watch.own] at hk
    split at hk
    · exact ⟨_, _, List.mem_singleton.1 hk⟩
    · cases hk

theorem areQuiet_marksIn (h : w.reads = false) (t : Node) : AreQuiet (marksIn hide w t) := by
  induction t using induct generalizing w with
  | step t ih =>
    rw [marksIn_eq, Watch.before_of_unread h, Watch.after_of_unread h, List.append_nil,
      List.append_nil]
    refine (areQuiet_ite (w.areQuiet_own t)).append (areQuiet_ite fun k hk => ?_)
    rw [marksAmong_eq_flatMap] at hk
    obtain ⟨c, hc, hk⟩ := List.mem_flatMap.1 hk
    refine ih c hc ?_ k hk
    cases t with
    | string => cases hc
    | element => simp [Watch.inside, h]

theorem areQuiet_marksAmong (h : w.reads = false) (ts : List Node) :
    AreQuiet (marksAmong hide w ts) := fun k hk => by
  rw [marksAmong_eq_flatMap] at hk
  obtain ⟨t, -, hk⟩ := List.mem_flatMap.1 hk
  exact areQuiet_marksIn h t k hk

end

theorem areQuiet_inside {hide : NodeId → Bool} (w : Watch) {t : Node} {p : Piece}
    (hpiece : ({} : Extraction).piece? t = some p) :
    AreQuiet (marksAmong hide (w.inside t) t.children) := by
  cases t with
  | string => exact fun k hk => absurd hk List.not_mem_nil
  | element label tag attributes children =>
    refine areQuiet_marksAmong ?_ _
    simp [Watch.inside, hpiece]

/-- Nothing is hidden. -/
def hideNone (_ : NodeId) : Bool := false

theorem marksIn_hideNone {w : Watch} (t : Node) : marksIn hideNone w t =
    w.own t ++ w.before t ++ marksAmong hideNone (w.inside t) t.children ++ w.after t := by
  rw [marksIn_eq, if_neg (by simp [hideNone]), if_neg (by simp [hideNone])]

/-- The blocks that hold more than blanks. -/
def filled (blocks : List Block) : List Block :=
  blocks.filter fun block => !Text.isBlankText block.string

@[simp] theorem filled_append (a b : List Block) : filled (a ++ b) = filled a ++ filled b :=
  List.filter_append ..

theorem filled_cons_eq_append (block : Block) (rest : List Block) :
    filled (block :: rest) = filled [block] ++ filled rest := filled_append [block] rest

section

variable {w : Watch}

/-- The blocks of some siblings are what is between the stops. -/
theorem filled_blocksOf_of_forall (hr : w.reads = true) {ts : List Node}
    (h : ∀ t ∈ ts, ({} : Extraction).piece? t = none →
      filled (blocksOf [] (marksAmong hideNone (w.inside t) t.children)) =
        filled (({} : Extraction).blocksIn w.ignores t)) (pending : Block) :
    filled (blocksOf pending (marksAmong hideNone w ts)) =
      filled (({} : Extraction).blocksAmong w.ignores pending ts) := by
  induction ts generalizing pending with
  | nil => rfl
  | cons t rest ih =>
    have hrest := ih fun u hu => h u (List.mem_cons_of_mem _ hu)
    rw [marksAmong, Extraction.blocksAmong]
    cases hpiece : ({} : Extraction).piece? t with
    | some p =>
      have hquiet := areQuiet_ite (p := hideNone t.label) (@areQuiet_inside hideNone w _ _ hpiece)
      rw [marksIn_of_piece? hpiece, List.append_assoc]
      cases hi : w.ignores with
      | true =>
        rw [Watch.before_of_ignored hpiece hi, List.nil_append, hquiet.blocksOf_append, hrest, hi]
        rfl
      | false =>
        rw [Watch.before_of_text hpiece hr hi, List.singleton_append, blocksOf,
          hquiet.blocksOf_append, hrest, hi]
        rfl
    | none =>
      have hinside := h t (List.mem_cons_self ..) hpiece
      rw [marksIn_of_stop hpiece hr, List.append_assoc,
        (areQuiet_ite (w.areQuiet_own t)).blocksOf_append, List.cons_append, List.append_assoc,
        blocksOf, List.singleton_append, blocksOf_append_stop, filled_cons_eq_append,
        filled_append, hrest]
      simp only [hideNone, Bool.false_eq_true, if_false]
      rw [hinside, ← filled_append, ← filled_cons_eq_append]

theorem filled_blocksOf (t : Node) (hr : w.reads = true)
    (hpiece : ({} : Extraction).piece? t = none) :
    filled (blocksOf [] (marksAmong hideNone (w.inside t) t.children)) =
      filled (({} : Extraction).blocksIn w.ignores t) := by
  induction t using induct generalizing w with
  | step t ih =>
    cases t with
    | string => rfl
    | element label tag attributes children =>
      have hreads : (w.inside (.element label tag attributes children)).reads =
          ({} : Extraction).enters tag attributes := by
        simp [Watch.inside, hr, hpiece]
      rw [Extraction.blocksIn, Tree.children]
      split
      · rename_i henters
        have hr' := hreads.trans henters
        exact filled_blocksOf_of_forall hr' (fun c hc hnone => ih c hc hr' hnone) []
      · rename_i hleft
        have hquiet := @areQuiet_marksAmong hideNone _
          (hreads.trans (Bool.not_eq_true _ ▸ hleft)) children
        have hnil := hquiet.blocksOf_append [] []
        rw [List.append_nil] at hnil
        rw [hnil]
        rfl

/-- The blocks of a container. -/
theorem find_eq_blocksOf (container : Node) (seeks : Bool) :
    ({} : Extraction).find container =
      filled (blocksOf [] (marksAmong hideNone ⟨true, false, seeks⟩ container.children)) :=
  (filled_blocksOf_of_forall (w := ⟨true, false, seeks⟩) rfl
    (fun t _ hpiece => filled_blocksOf t rfl hpiece) []).symm

end

/-! ### Elements -/

/-- The element of a mark. -/
def Mark.element? : Mark → Option (NodeId × Bool)
  | element m display => some (m, display)
  | _ => none

/-- The elements among some marks. -/
def elementsOf (marks : List Mark) : List (NodeId × Bool) := marks.filterMap Mark.element?

@[simp] theorem elementsOf_append (a b : List Mark) :
    elementsOf (a ++ b) = elementsOf a ++ elementsOf b := List.filterMap_append

section

variable {w : Watch}

@[simp] theorem Watch.elementsOf_before (w : Watch) (t : Node) : elementsOf (w.before t) = [] := by
  rw [before]
  split <;> split <;> rfl

@[simp] theorem Watch.elementsOf_after (w : Watch) (t : Node) : elementsOf (w.after t) = [] := by
  rw [after]
  split <;> rfl

/-- What is kept of an element that is mathematics. -/
def Tree.sought (n : Node) : NodeId × Bool := (n.label, Source.isDisplay n)

theorem elementsOf_marksAmong_of_forall {ts : List Node}
    (h : ∀ t ∈ ts, elementsOf (marksIn hideNone w t) =
      if w.seeks then (Source.mathIn t).map sought else []) :
    elementsOf (marksAmong hideNone w ts) =
      if w.seeks then (Source.mathAmong ts).map sought else [] := by
  induction ts with
  | nil => simp [marksAmong, Source.mathAmong, elementsOf]
  | cons t rest ih =>
    rw [marksAmong, elementsOf_append, h t (List.mem_cons_self ..),
      ih fun u hu => h u (List.mem_cons_of_mem _ hu), Source.mathAmong]
    split
    · rw [List.map_append]
    · rfl

theorem elementsOf_marksIn (t : Node) :
    elementsOf (marksIn hideNone w t) = if w.seeks then (Source.mathIn t).map sought else [] := by
  induction t using induct generalizing w with
  | step t ih =>
    rw [marksIn_hideNone]
    simp only [elementsOf_append, Watch.elementsOf_before, Watch.elementsOf_after,
      List.append_nil]
    rw [elementsOf_marksAmong_of_forall fun c hc => ih c hc]
    cases t with
    | string => simp [Watch.own, elementsOf, Source.mathIn, Source.mathAmong, Tree.children]
    | element label tag attributes children =>
      rw [Source.mathIn, Watch.own]
      by_cases htag : tag = "math"
      · simp only [htag, if_true, Watch.inside, decide_true, Bool.true_and, ne_eq, not_true,
          decide_false, Bool.and_false, Bool.false_eq_true, if_false, List.append_nil]
        cases w.seeks with
        | false => rfl
        | true => cases (attributes.get? Formula.typesetMark).isNone <;> rfl
      · simp only [htag, if_false, Watch.inside, decide_false, Bool.false_and, Bool.and_false,
          Bool.false_eq_true, ne_eq, not_false_eq_true, decide_true, Bool.and_true]
        rfl

/-- The marks of elements are those of the elements that a session finds. -/
theorem elementsOf_marksAmong (ts : List Node) :
    elementsOf (marksAmong hideNone w ts) =
      if w.seeks then (Source.mathAmong ts).map sought else [] :=
  elementsOf_marksAmong_of_forall fun t _ => elementsOf_marksIn t

end

/-! ### Document order -/

/-- The place that a mark is of. -/
def Mark.place? : Mark → Option NodeId
  | piece p => some p.node
  | element m _ => some m
  | stop => none

/-- The places of some marks. -/
def placesOf (marks : List Mark) : List NodeId := marks.filterMap Mark.place?

@[simp] theorem placesOf_append (a b : List Mark) : placesOf (a ++ b) = placesOf a ++ placesOf b :=
  List.filterMap_append

theorem placesOf_marksAmong_of_forall {hide : NodeId → Bool} {w : Watch} {ts : List Node}
    (h : ∀ t ∈ ts, (placesOf (marksIn hide w t)).Sublist t.labels) :
    (placesOf (marksAmong hide w ts)).Sublist ((subtreesAll ts).map label) := by
  induction ts with
  | nil => exact .refl _
  | cons t rest ih =>
    rw [marksAmong, placesOf_append, subtreesAll, List.map_append]
    exact (h t (List.mem_cons_self ..)).append (ih fun u hu => h u (List.mem_cons_of_mem _ hu))

/-- A place is at most one of a piece and an element that is mathematics. -/
theorem Watch.placesOf_front (w : Watch) (t : Node) :
    (placesOf (w.own t ++ w.before t)).Sublist [t.label] := by
  cases hpiece : ({} : Extraction).piece? t with
  | some p =>
    rw [w.own_of_piece? hpiece, List.nil_append, before, hpiece]
    dsimp only
    split
    · show [p.node].Sublist [t.label]
      rw [Extraction.piece?_node hpiece]
    · exact List.nil_sublist _
  | none =>
    have hbefore : placesOf (w.before t) = [] := by
      rw [before, hpiece]
      dsimp only
      split <;> rfl
    rw [placesOf_append, hbefore, List.append_nil]
    cases t with
    | string => exact List.nil_sublist _
    | element label tag attributes children =>
      rw [Watch.own]
      split
      · exact .refl _
      · exact List.nil_sublist _

/-- The marks of a place are of itself and of places below it, in document order. -/
theorem placesOf_marksIn_sublist {hide : NodeId → Bool} {w : Watch} (t : Node) :
    (placesOf (marksIn hide w t)).Sublist t.labels := by
  induction t using induct generalizing w with
  | step t ih =>
    have hafter : placesOf (w.after t) = [] := by
      rw [Watch.after]
      split <;> rfl
    have hfront := w.placesOf_front t
    rw [marksIn_eq, placesOf_append, hafter, List.append_nil, labels, subtrees_eq, List.map_cons]
    split
    · rw [placesOf_append] at hfront
      rw [List.nil_append, List.append_nil]
      exact ((List.sublist_append_right _ _).trans hfront).trans
        (List.cons_sublist_cons.2 (List.nil_sublist _))
    · rw [placesOf_append]
      exact hfront.append (placesOf_marksAmong_of_forall fun c hc => ih c hc)

theorem placesOf_marksAmong_sublist {hide : NodeId → Bool} {w : Watch} (ts : List Node) :
    (placesOf (marksAmong hide w ts)).Sublist ((subtreesAll ts).map label) :=
  placesOf_marksAmong_of_forall fun t _ => placesOf_marksIn_sublist t

end Formulary
