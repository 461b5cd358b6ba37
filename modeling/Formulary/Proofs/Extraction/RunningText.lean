import Formulary.Proofs.Delimiters.Search
import Formulary.Proofs.Extraction.Blocks

/-! # Which text is searched

The blocks of a container are the maximal stretches of neighbouring pieces among the children of
every place that is reached and whose text is not left out, as far as they hold more than blanks,
in document order (`Extraction.find_stretches`).

Whether a place is reached is said by the elements on the way down to it (`Descends`), and whether
its text is left out by the lowest of them with a class that speaks of it (`Extraction.Ignores`).
What a class is, is said by the words in it (`Extraction.HasWord`). -/

namespace Formulary

open Formulary.Tree

/-- The places on the way from a place up to a container, the container left out, the place itself
first. -/
inductive Descends (container : Node) : List Node → Node → Prop
  | here : Descends container [] container
  | child {path : List Node} {parent child : Node} (hpath : Descends container path parent)
      (hchild : child ∈ parent.children) : Descends container (child :: path) child

theorem descends_iff {container parent : Node} {path : List Node} :
    Descends container path parent ↔
      (path = [] ∧ parent = container) ∨ ∃ c ∈ container.children, ∃ lower,
        path = lower ++ [c] ∧ Descends c lower parent := by
  constructor
  · intro h
    induction h with
    | here => exact .inl ⟨rfl, rfl⟩
    | @child path middle last hpath hchild ih =>
      right
      rcases ih with ⟨rfl, rfl⟩ | ⟨c, hc, lower, rfl, hlower⟩
      · exact ⟨last, hchild, [], rfl, .here⟩
      · exact ⟨c, hc, last :: lower, rfl, hlower.child hchild⟩
  · rintro (⟨rfl, rfl⟩ | ⟨c, hc, lower, rfl, hlower⟩)
    · exact .here
    · induction hlower with
      | here => exact Descends.here.child hc
      | child _ hchild ih => exact ih.child hchild

namespace Extraction

variable {o : Extraction}

/-! ### Classes -/

/-- One of some names, not an empty one, stands in a text between spaces or at the ends of it; a
line break at the very end is passed over. -/
def HasWord (names : List String) (value : String) : Prop :=
  ∃ name ∈ names, name ≠ "" ∧ ∃ before after : List Char,
    value.toList = before ++ name.toList ++ after ∧
      (before = [] ∨ before.getLast? = some ' ') ∧
      (after = [] ∨ after.head? = some ' ' ∨ after = ['\n'])

theorem mem_spaceTails {s tail : List Char} :
    tail ∈ spaceTails s ↔ ∃ before, s = before ++ ' ' :: tail := by
  induction s with
  | nil => simp [spaceTails]
  | cons c rest ih =>
    rw [spaceTails]
    split
    · rename_i hc
      subst hc
      rw [List.mem_cons, ih]
      constructor
      · rintro (rfl | ⟨before, rfl⟩)
        · exact ⟨[], rfl⟩
        · exact ⟨' ' :: before, rfl⟩
      · rintro ⟨before, h⟩
        cases before with
        | nil => exact .inl (List.cons.inj h).2.symm
        | cons d before => exact .inr ⟨before, (List.cons.inj h).2⟩
    · rename_i hc
      rw [ih]
      constructor
      · rintro ⟨before, rfl⟩
        exact ⟨c :: before, rfl⟩
      · rintro ⟨before, h⟩
        cases before with
        | nil => exact absurd (List.cons.inj h).1 hc
        | cons d before => exact ⟨before, (List.cons.inj h).2⟩

theorem mem_tails_iff {s tail : List Char} :
    tail ∈ s :: spaceTails s ↔
      ∃ before, s = before ++ tail ∧ (before = [] ∨ before.getLast? = some ' ') := by
  rw [List.mem_cons, mem_spaceTails]
  constructor
  · rintro (rfl | ⟨before, rfl⟩)
    · exact ⟨[], rfl, .inl rfl⟩
    · exact ⟨before ++ [' '], by simp, .inr (by simp)⟩
  · rintro ⟨before, rfl, rfl | hlast⟩
    · exact .inl rfl
    · obtain ⟨init, rfl⟩ := List.getLast?_eq_some_iff.1 hlast
      exact .inr ⟨init, by simp⟩

theorem hasClass_iff {names : List String} {value : String} :
    hasClass names value = true ↔ HasWord names value := by
  have hends : ∀ rest : List Char, endsName rest = true ↔
      rest = [] ∨ rest.head? = some ' ' ∨ rest = ['\n'] := by
    intro rest
    simp [endsName, or_assoc]
  have hafter : ∀ (p s : List Char), ((Text.after? p s).map endsName).getD false = true ↔
      ∃ rest, s = p ++ rest ∧ endsName rest = true := by
    intro p s
    cases h : Text.after? p s with
    | none =>
      simp only [Option.map_none, Option.getD_none, Bool.false_eq_true, false_iff]
      rintro ⟨rest, rfl, -⟩
      rw [Text.after?_eq_some.2 rfl] at h
      cases h
    | some rest =>
      obtain rfl := Text.after?_eq_some.1 h
      simp
  simp only [hasClass, List.any_eq_true, Bool.and_eq_true, decide_eq_true_eq, hafter, hends,
    mem_tails_iff, HasWord]
  constructor
  · rintro ⟨tail, ⟨before, hvalue, hbefore⟩, name, hname, hne, rest, rfl, hrest⟩
    exact ⟨name, hname, hne, before, rest, by rw [hvalue, List.append_assoc], hbefore, hrest⟩
  · rintro ⟨name, hname, hne, before, rest, hvalue, hbefore, hrest⟩
    exact ⟨name.toList ++ rest, ⟨before, by rw [hvalue, List.append_assoc], hbefore⟩, name, hname,
      hne, rest, rfl, hrest⟩

/-- The value of the `class` attribute of a place. -/
def classOf (node : Node) : String := (node.attribute? "class").getD ""

/-- The place is marked as one to search in any case. -/
def IsProcessed (o : Extraction) (node : Node) : Prop := HasWord o.processClasses (classOf node)

/-- The place is marked as one to leave out. -/
def IsIgnored (o : Extraction) (node : Node) : Prop := HasWord o.ignoreClasses (classOf node)

/-! ### What is reached and what is left out -/

/-- A search goes into a place: it is not typeset mathematics, it is no piece of the text around
it, and its tag is not left out or its class overrides that. -/
structure Opens (o : Extraction) (node : Node) : Prop where
  untypeset : node.attribute? Formula.typesetMark = none
  notText : node.isText = false
  notIncluded : o.included.get? node.kind = none
  entered : node.kind ∉ o.skipped ∨ o.IsProcessed node

/-- A search goes into every place on a way. -/
def Reaches (o : Extraction) (path : List Node) : Prop := ∀ node ∈ path, o.Opens node

/-- The lowest place on a way whose class speaks of searching is not marked as one to search. -/
def Ignores (o : Extraction) (path : List Node) : Prop :=
  ∃ lower node upper, path = lower ++ node :: upper ∧
    (∀ n ∈ lower, ¬o.IsIgnored n ∧ ¬o.IsProcessed n) ∧
    (o.IsIgnored node ∨ o.IsProcessed node) ∧ ¬o.IsProcessed node

/-- The place belongs to the text around it. -/
def IsPart (o : Extraction) (node : Node) : Prop :=
  node.isText = true ∨ (o.included.get? node.kind).isSome

/-- The text that a place stands for in the text around it. -/
def textOf (o : Extraction) (node : Node) : String :=
  if node.isText then node.value else (o.included.get? node.kind).getD ""

/-- The block holds the texts of a maximal stretch of neighbouring parts among some siblings. -/
def IsMaximal (o : Extraction) (siblings : List Node) (block : Block) : Prop :=
  ∃ before nodes after, siblings = before ++ nodes ++ after ∧ nodes ≠ [] ∧
    (∀ n ∈ nodes, o.IsPart n) ∧ (∀ n ∈ before.getLast?, ¬o.IsPart n) ∧
    (∀ n ∈ after.head?, ¬o.IsPart n) ∧
    block = nodes.map (fun n => ⟨n.label, o.textOf n⟩) ∧
    block.string = String.join (nodes.map o.textOf) ∧
    block.runs = nodes.map fun n => ⟨n.label, (o.textOf n).length⟩

/-! ### Stretches of pieces -/

/-- The block is a maximal stretch of pieces in a sequence that has gaps. -/
def IsStretchIn (sequence : List (Option Piece)) (block : Block) : Prop :=
  ∃ before after, sequence = before ++ block.map some ++ after ∧
    before.getLast?.join = none ∧ after.head?.join = none

theorem eq_nil_of_all_some {l : List (Option Piece)} (h : none ∉ l) :
    (l.getLast?.join = none → l = []) ∧ (l.head?.join = none → l = []) := by
  constructor
  · intro hlast
    cases hl : l.getLast? with
    | none => exact List.getLast?_eq_none_iff.1 hl
    | some x =>
      rw [hl] at hlast
      obtain rfl : x = none := hlast
      exact absurd (List.mem_of_getLast? hl) h
  · intro hhead
    cases l with
    | nil => rfl
    | cons x rest =>
      obtain rfl : x = none := hhead
      exact absurd (List.mem_cons_self ..) h

theorem none_not_mem_map_some (block : Block) : none ∉ block.map some := by simp

theorem isStretchIn_map_some {pending block : Block} :
    IsStretchIn (pending.map some) block ↔ block = pending := by
  constructor
  · rintro ⟨before, after, heq, hbefore, hafter⟩
    have hnone := none_not_mem_map_some pending
    rw [heq, List.mem_append, List.mem_append, not_or, not_or] at hnone
    obtain rfl := (eq_nil_of_all_some hnone.1.1).1 hbefore
    obtain rfl := (eq_nil_of_all_some hnone.2).2 hafter
    rw [List.nil_append, List.append_nil] at heq
    exact ((List.map_inj_right fun _ _ => Option.some.inj).1 heq).symm
  · rintro rfl
    exact ⟨[], [], by simp, rfl, rfl⟩

/-- A part of a list that does not hold an element is in front of an occurrence of it or behind
that. -/
theorem append_eq_append_cons {α : Type} {x : α} {before mid after l r : List α} (hmid : x ∉ mid)
    (h : before ++ mid ++ after = l ++ x :: r) :
    (∃ s, l = before ++ mid ++ s ∧ after = s ++ x :: r) ∨
      ∃ s, before = l ++ x :: s ∧ r = s ++ mid ++ after := by
  rcases List.append_eq_append_iff.1 h with ⟨s, hl, hafter⟩ | ⟨s, hfront, hr⟩
  · exact .inl ⟨s, hl, hafter⟩
  cases s with
  | nil => exact .inl ⟨[], by simpa using hfront.symm, hr.symm⟩
  | cons y s =>
    obtain ⟨rfl, rfl⟩ := List.cons.inj hr
    rcases List.append_eq_append_iff.1 hfront with ⟨s', -, hmid'⟩ | ⟨s', hbefore, hs⟩
    · exact absurd (hmid' ▸ List.mem_append_right _ (List.mem_cons_self ..)) hmid
    cases s' with
    | nil =>
      obtain rfl : x :: s = mid := hs
      exact absurd (List.mem_cons_self ..) hmid
    | cons y s' =>
      obtain ⟨rfl, rfl⟩ := List.cons.inj hs
      exact .inr ⟨s', hbefore, rfl⟩

theorem isStretchIn_append_none {pending block : Block} {rest : List (Option Piece)} :
    IsStretchIn (pending.map some ++ none :: rest) block ↔
      block = pending ∨ IsStretchIn rest block := by
  constructor
  · rintro ⟨before, after, heq, hbefore, hafter⟩
    rcases append_eq_append_cons (none_not_mem_map_some block) heq.symm with
      ⟨s, hpending, rfl⟩ | ⟨s, rfl, hrest⟩
    · left
      refine isStretchIn_map_some.1 ⟨before, s, hpending, hbefore, ?_⟩
      cases s with
      | nil => rfl
      | cons x s => exact hafter
    · right
      refine ⟨s, after, hrest, ?_, hafter⟩
      rw [List.getLast?_append_cons] at hbefore
      cases s with
      | nil => rfl
      | cons x s => exact hbefore
  · rintro (rfl | ⟨before, after, rfl, hbefore, hafter⟩)
    · exact ⟨[], none :: rest, rfl, rfl, rfl⟩
    · refine ⟨pending.map some ++ none :: before, after, by simp, ?_, hafter⟩
      rw [List.getLast?_append_cons]
      cases before with
      | nil => rfl
      | cons x before => exact hbefore

theorem piece?_of_isPart {node : Node} (h : o.IsPart node) :
    o.piece? node = some ⟨node.label, o.textOf node⟩ := by
  rw [piece?, textOf]
  rcases h with htext | hincluded
  · rw [if_pos htext, if_pos htext]
  · obtain ⟨text, hget⟩ := Option.isSome_iff_exists.1 hincluded
    rw [hget]
    split <;> rfl

theorem piece?_eq_none_iff {node : Node} : o.piece? node = none ↔ ¬o.IsPart node := by
  constructor
  · intro h hpart
    rw [piece?_of_isPart hpart] at h
    cases h
  · intro h
    rw [IsPart, not_or, Bool.not_eq_true, Bool.not_eq_true, Option.isSome_eq_false_iff,
      Option.isNone_iff_eq_none] at h
    simp [piece?, h.1, h.2]

theorem isPart_of_piece? {node : Node} {piece : Piece} (h : o.piece? node = some piece) :
    o.IsPart node ∧ piece = ⟨node.label, o.textOf node⟩ := by
  have hpart : o.IsPart node := by
    by_contra hnot
    rw [piece?_eq_none_iff.2 hnot] at h
    cases h
  rw [piece?_of_isPart hpart] at h
  exact ⟨hpart, (Option.some.inj h).symm⟩

theorem map_piece?_eq_iff {nodes : List Node} {block : Block} :
    nodes.map o.piece? = block.map some ↔
      (∀ n ∈ nodes, o.IsPart n) ∧ block = nodes.map fun n => ⟨n.label, o.textOf n⟩ := by
  constructor
  · intro h
    have hparts : ∀ n ∈ nodes, o.IsPart n := fun n hn => by
      have hmem : o.piece? n ∈ block.map some := h ▸ List.mem_map_of_mem hn
      obtain ⟨piece, -, hpiece⟩ := List.mem_map.1 hmem
      exact (isPart_of_piece? hpiece.symm).1
    refine ⟨hparts, (List.map_inj_right fun _ _ => Option.some.inj).1 ?_⟩
    rw [← h, List.map_map]
    exact List.map_congr_left fun n hn => piece?_of_isPart (hparts n hn)
  · rintro ⟨hparts, rfl⟩
    rw [List.map_map]
    exact List.map_congr_left fun n hn => piece?_of_isPart (hparts n hn)

theorem join_map_piece? {x : Option Node} :
    (x.map o.piece?).join = none ↔ ∀ n ∈ x, ¬o.IsPart n := by
  cases x with
  | none => simp
  | some n => simp [piece?_eq_none_iff]

/-- The stretches of pieces among some siblings are their maximal stretches of parts. -/
theorem isMaximal_iff {siblings : List Node} {block : Block} (hne : block ≠ []) :
    o.IsMaximal siblings block ↔ IsStretchIn (siblings.map o.piece?) block := by
  constructor
  · rintro ⟨before, nodes, after, rfl, -, hparts, hbefore, hafter, hblock, -, -⟩
    refine ⟨before.map o.piece?, after.map o.piece?, ?_, ?_, ?_⟩
    · rw [List.map_append, List.map_append, map_piece?_eq_iff.2 ⟨hparts, hblock⟩]
    · rw [List.getLast?_map]
      exact join_map_piece?.2 hbefore
    · rw [List.head?_map]
      exact join_map_piece?.2 hafter
  · rintro ⟨before', after', heq, hbefore, hafter⟩
    obtain ⟨front, after, rfl, hfront, rfl⟩ := List.map_eq_append_iff.1 heq
    obtain ⟨before, nodes, rfl, rfl, hnodes⟩ := List.map_eq_append_iff.1 hfront
    obtain ⟨hparts, hblock⟩ := map_piece?_eq_iff.1 hnodes
    rw [List.getLast?_map] at hbefore
    rw [List.head?_map] at hafter
    refine ⟨before, nodes, after, rfl, ?_, hparts, join_map_piece?.1 hbefore,
      join_map_piece?.1 hafter, hblock, ?_, ?_⟩
    · rintro rfl
      exact hne hblock
    · rw [hblock, Block.string, List.map_map]
      rfl
    · rw [hblock, Block.runs, List.map_map]
      rfl

/-! ### The blocks of a tree -/

/-- The blocks among some siblings are their stretches, unless their text is left out, and the
blocks in those that are no pieces. -/
theorem mem_blocksAmong {ignored : Bool} {pending block : Block} {ts : List Node}
    (hne : block ≠ []) (hpending : ignored = true → pending = []) :
    block ∈ o.blocksAmong ignored pending ts ↔
      (ignored = false ∧ IsStretchIn (pending.map some ++ ts.map o.piece?) block) ∨
        ∃ t ∈ ts, o.piece? t = none ∧ block ∈ o.blocksIn ignored t := by
  induction ts generalizing pending with
  | nil =>
    rw [blocksAmong, List.mem_singleton, List.map_nil, List.append_nil, isStretchIn_map_some]
    cases ignored with
    | false => simp
    | true => simp [hpending rfl, hne]
  | cons t rest ih =>
    rw [blocksAmong, List.map_cons]
    cases hpiece : o.piece? t with
    | some piece =>
      simp only [List.exists_mem_cons_iff, hpiece, reduceCtorEq, false_and, false_or]
      cases ignored with
      | true =>
        rw [if_pos rfl, ih hpending]
        simp
      | false =>
        rw [if_neg (by simp), ih (by simp), List.map_append, List.append_assoc]
        rfl
    | none =>
      have hexists : (∃ u ∈ t :: rest, o.piece? u = none ∧ block ∈ o.blocksIn ignored u) ↔
          block ∈ o.blocksIn ignored t ∨
            ∃ u ∈ rest, o.piece? u = none ∧ block ∈ o.blocksIn ignored u := by
        simp [hpiece]
      rw [List.mem_cons, List.mem_append, ih fun _ => rfl, isStretchIn_append_none, hexists,
        List.map_nil, List.nil_append]
      cases ignored with
      | true => simp [hpending rfl, hne]
      | false => tauto

/-- Whether text is left out after going down a way, given whether it is above. -/
def ignoring (o : Extraction) (ignored : Bool) (path : List Node) : Bool :=
  path.foldr (fun node above => (above || hasClass o.ignoreClasses (classOf node)) &&
    !hasClass o.processClasses (classOf node)) ignored

/-- The lowest place whose class speaks of searching decides. -/
theorem ignoring_iff {path : List Node} : o.ignoring false path = true ↔ o.Ignores path := by
  induction path with
  | nil =>
    simp only [ignoring, List.foldr_nil, Bool.false_eq_true, false_iff]
    rintro ⟨lower, node, upper, h, -⟩
    simp at h
  | cons node path ih =>
    have hcons : o.ignoring false (node :: path) = true ↔
        (o.Ignores path ∨ o.IsIgnored node) ∧ ¬o.IsProcessed node := by
      rw [← ih, IsIgnored, IsProcessed, ← hasClass_iff, ← hasClass_iff]
      simp [ignoring]
    rw [hcons]
    constructor
    · rintro ⟨habove, hprocessed⟩
      by_cases hignored : o.IsIgnored node
      · exact ⟨[], node, path, rfl, fun n hn => absurd hn List.not_mem_nil, .inl hignored,
          hprocessed⟩
      · obtain ⟨lower, n, upper, rfl, hlower, hn⟩ := habove.resolve_right hignored
        refine ⟨node :: lower, n, upper, rfl, fun m hm => ?_, hn⟩
        rcases List.mem_cons.1 hm with rfl | hm
        · exact ⟨hignored, hprocessed⟩
        · exact hlower m hm
    · rintro ⟨lower, n, upper, heq, hlower, hn, hprocessed⟩
      cases lower with
      | nil =>
        obtain ⟨rfl, rfl⟩ := List.cons.inj heq
        exact ⟨.inr (hn.resolve_right hprocessed), hprocessed⟩
      | cons m lower =>
        obtain ⟨rfl, rfl⟩ := List.cons.inj heq
        refine ⟨.inl ⟨lower, n, upper, rfl, fun k hk => hlower k (List.mem_cons_of_mem _ hk), hn,
          hprocessed⟩, (hlower node (List.mem_cons_self ..)).2⟩

theorem opens_element_iff {label : NodeId} {tag : String} {attributes : Fields Attribute}
    {children : List Node} :
    o.Opens (.element label tag attributes children) ↔
      o.piece? (.element label tag attributes children) = none ∧ o.enters tag attributes = true := by
  have hclass : classOf (.element label tag attributes children) = classes attributes := rfl
  rw [piece?_eq_none_iff, IsPart, not_or, enters, processes, ← hclass]
  constructor
  · rintro ⟨huntypeset, htext, hincluded, hentered⟩
    refine ⟨⟨by simp [htext], by simp [hincluded]⟩, ?_⟩
    rw [Bool.and_eq_true, Bool.or_eq_true, hasClass_iff, decide_eq_true_eq]
    refine ⟨?_, hentered.symm⟩
    simpa [attribute?] using huntypeset
  · rintro ⟨⟨htext, hincluded⟩, henters⟩
    rw [Bool.and_eq_true, Bool.or_eq_true, hasClass_iff, decide_eq_true_eq] at henters
    refine ⟨?_, by simpa using htext, by simpa using hincluded, henters.2.symm⟩
    simpa [attribute?] using henters.1

theorem mem_blocksIn {t : Node} {ignored : Bool} {block : Block} (hne : block ≠ [])
    (hpiece : o.piece? t = none) :
    block ∈ o.blocksIn ignored t ↔
      o.Opens t ∧ block ∈ o.blocksAmong (o.ignoring ignored [t]) [] t.children := by
  cases t with
  | string label kind value =>
    rw [blocksIn, Tree.children, blocksAmong, List.mem_singleton]
    exact ⟨fun h => absurd h List.not_mem_nil, fun h => absurd h.2 hne⟩
  | element label tag attributes children =>
    have hopens := (opens_element_iff (o := o)).trans (and_iff_right hpiece)
    rw [blocksIn, hopens]
    split
    · rename_i henters
      exact (and_iff_right henters).symm
    · rename_i henters
      exact ⟨fun h => absurd h List.not_mem_nil, fun h => absurd h.1 henters⟩

theorem ignoring_append {ignored : Bool} {lower upper : List Node} :
    o.ignoring ignored (lower ++ upper) = o.ignoring (o.ignoring ignored upper) lower :=
  List.foldr_append

/-- The blocks among the children of a place are the stretches of the places that are reached from
it and whose text is not left out. -/
theorem mem_blocksAmong_children {t : Node} {ignored : Bool} {block : Block} (hne : block ≠ []) :
    block ∈ o.blocksAmong ignored [] t.children ↔ ∃ path parent, Descends t path parent ∧
      o.Reaches path ∧ o.ignoring ignored path = false ∧
      IsStretchIn (parent.children.map o.piece?) block := by
  induction t using induct generalizing ignored with
  | step t ih =>
    rw [mem_blocksAmong hne fun _ => rfl, List.map_nil, List.nil_append]
    constructor
    · rintro (⟨hkept, hstretch⟩ | ⟨c, hc, hnone, hblock⟩)
      · exact ⟨[], t, .here, fun node hnode => absurd hnode List.not_mem_nil, hkept, hstretch⟩
      · obtain ⟨hopens, hblock⟩ := (mem_blocksIn hne hnone).1 hblock
        obtain ⟨path, parent, hpath, hreach, hkept, hstretch⟩ := (ih c hc).1 hblock
        refine ⟨path ++ [c], parent, descends_iff.2 (.inr ⟨c, hc, path, rfl, hpath⟩),
          fun node hnode => ?_, ignoring_append.trans hkept, hstretch⟩
        rcases List.mem_append.1 hnode with hnode | hnode
        · exact hreach node hnode
        · exact List.mem_singleton.1 hnode ▸ hopens
    · rintro ⟨path, parent, hpath, hreach, hkept, hstretch⟩
      rcases descends_iff.1 hpath with ⟨rfl, rfl⟩ | ⟨c, hc, lower, rfl, hlower⟩
      · exact .inl ⟨hkept, hstretch⟩
      · have hopens := hreach c (by simp)
        have hnone : o.piece? c = none := by
          rw [piece?_eq_none_iff, IsPart, hopens.notText, hopens.notIncluded]
          simp
        rw [ignoring_append] at hkept
        exact .inr ⟨c, hc, hnone, (mem_blocksIn hne hnone).2 ⟨hopens, (ih c hc).2 ⟨lower, parent,
          hlower, fun node hnode => hreach node (List.mem_append_left _ hnode), hkept, hstretch⟩⟩⟩

/-- The blocks of a container are the maximal stretches of parts among the children of the places
that are reached and whose text is not left out, as far as they hold more than blanks, and they
come in document order. -/
theorem find_stretches (o : Extraction) (container : Node) :
    (∀ block, block ∈ o.find container ↔
      (∃ path parent, Descends container path parent ∧ o.Reaches path ∧ ¬o.Ignores path ∧
        o.IsMaximal parent.children block) ∧
      ∃ c ∈ block.string.toList, Text.isBlank c = false) ∧
    ((o.find container).flatten.map Piece.node).Sublist
      ((subtreesAll container.children).map label) := by
  refine ⟨fun block => ?_, o.find_sublist container⟩
  have hblank : (!Text.isBlankText block.string) = true ↔
      ∃ c ∈ block.string.toList, Text.isBlank c = false := by
    simp [Text.isBlankText]
  rw [find, List.mem_filter, hblank]
  refine and_congr_left fun ⟨c, hc, _⟩ => ?_
  have hne : block ≠ [] := by
    rintro rfl
    simp [Block.string] at hc
  rw [mem_blocksAmong_children hne]
  refine exists_congr fun path => exists_congr fun parent => ?_
  rw [isMaximal_iff hne, ← ignoring_iff, Bool.not_eq_true]

end Extraction

end Formulary
