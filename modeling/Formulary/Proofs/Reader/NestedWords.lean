import Mathlib.Data.List.Induction
import Formulary.Proofs.Reader.StackSoundness

/-! # Nested constructions

What is pushed on the parse stack is a word of letters: finished nodes, and the beginnings and ends
of constructions (`Letter`).  `Nested` is the grammar of the words in which every construction that
begins also ends, the inner ones first, together with the formulas that such a word stands for.

The stack reads exactly these words (`Stack.pushAll_word`): what it holds after a word are the
constructions that the word leaves open and the formulas read since (`Leaves`), so it refuses a
letter only where no nested word goes on with it, and the end of the text only where something is
still open. -/

namespace Formulary

/-! ### Letters -/

/-- A node that stays one when it is put into another node. -/
def Formula.IsSolid (f : Formula) : Prop := (f.kind = "mrow" && f.inferred) = false

/-- What begins a construction. -/
inductive Opener where
  | group
  /-- A bra-ket or a set.  Among its properties are its fences and whether they stretch. -/
  | braket (properties : Fields Value)
  | fence (delimiter : Value)
  | environment (name : Value)
deriving DecidableEq, Repr, Inhabited

/-- What ends a construction. -/
inductive Ender where
  /-- The end of a group, a bra-ket or a set. -/
  | group
  | fence (delimiter : Value)
  | environment (name : Value)
deriving DecidableEq, Repr, Inhabited

/-- What is pushed on the stack before the end of the text, with the offset at which it was read. -/
inductive Letter where
  | node (f : Formula) (solid : f.IsSolid)
  | opening (opener : Opener) (offset : Option Int)
  | closing (ender : Ender) (offset : Option Int)
deriving Repr

namespace Opener

/-- The kind of frame that a construction is. -/
def kind : Opener → FrameKind
  | group => FrameKinds.openKind
  | braket _ => FrameKinds.braketKind
  | fence _ => FrameKinds.leftKind
  | environment _ => FrameKinds.beginKind

/-- What is said of a construction where it begins. -/
def properties : Opener → Fields Value
  | group => []
  | braket properties => properties
  | fence delimiter => [("delim", delimiter)]
  | environment name => [("env", name)]

/-- Whether a construction ends so.  An environment ends with its own name. -/
def endsWith : Opener → Ender → Bool
  | group, .group => true
  | braket _, .group => true
  | fence _, .fence _ => true
  | environment name, .environment other => other.agrees name
  | _, _ => false

/-- A row between two fences. -/
def fencedRow (stretchy : Bool) (opener : Value) (contents : List Formula) (closer : Value) :
    Formula where
  kind := "mrow"
  children := Formula.token "mo" opener (Formula.fence stretchy) (some .opening) :: contents ++
    [Formula.token "mo" closer (Formula.fence stretchy) (some .closing)]
  attributes := [("open", opener), ("close", closer)]
  texClass := some .inner

/-- The formula that a construction is when it has ended: a group is an atom, the others are rows
that show their fences or name their environment. -/
def built : Opener → Ender → List Formula → Formula
  | group, _, contents => { kind := "TeXAtom", children := contents, texClass := some .ord }
  | braket properties, _, contents =>
    let value (name : String) : Value := (properties.get? name).getD .absent
    fencedRow (value "stretchy").holds (value "open") contents (value "close")
  | fence opener, .fence closer, contents => fencedRow true opener contents closer
  | fence opener, _, contents => fencedRow true opener contents .absent
  | environment name, _, contents =>
    { kind := "mrow", children := contents, attributes := [("data-environment", name)] }

end Opener

namespace Ender

/-- The kind of item that ends a construction. -/
def kind (ender : Ender) : FrameKind where
  name :=
    match ender with
    | group => "close"
    | fence _ => "right"
    | environment _ => "end"
  isClose := true

/-- What is said of the end of a construction. -/
def properties : Ender → Fields Value
  | group => []
  | fence delimiter => [("delim", delimiter)]
  | environment name => [("env", name)]

end Ender

/-- An end that a construction may have. -/
def Opener.ender : Opener → Ender
  | group => .group
  | braket _ => .group
  | fence delimiter => .fence delimiter
  | environment name => .environment name

theorem Opener.endsWith_ender (opener : Opener) : opener.endsWith opener.ender = true := by
  cases opener <;> simp [endsWith, ender]

/-- A finished node as an item. -/
def Frame.finished (f : Formula) : Frame := { kind := Frame.finishedKind, nodes := [some f] }

/-- The item for a letter. -/
def Letter.item : Letter → Frame
  | node f _ => Frame.finished f
  | opening opener offset =>
    { kind := opener.kind, properties := opener.properties, openedWith := opener.properties, offset }
  | closing ender offset =>
    { kind := ender.kind, properties := ender.properties, openedWith := ender.properties, offset }

/-- The basic kinds of item and that of bra-kets. -/
def FrameKinds.withBraket : FrameKinds := FrameKinds.register .base FrameKinds.braketKind

/-- The items are those that are made under their names. -/
theorem Letter.create_eq (letter : Letter) :
    match letter with
    | node f _ => FrameKinds.withBraket.wrap (some f) = .ok letter.item
    | opening opener offset =>
      (FrameKinds.withBraket.create opener.kind.name opener.properties).map
        (fun item => { item with offset }) = .ok letter.item
    | closing ender offset =>
      (FrameKinds.withBraket.create ender.kind.name ender.properties).map
        (fun item => { item with offset }) = .ok letter.item := by
  cases letter with
  | node f _ => rfl
  | opening opener offset => cases opener <;> rfl
  | closing ender offset => cases ender <;> rfl

/-! ### Nested words -/

/-- The words in which every construction ends, and the formulas that they stand for. -/
inductive Nested : List Letter → List Formula → Prop
  | empty : Nested [] []
  | node {word : List Letter} {formulas : List Formula} (f : Formula) (solid : f.IsSolid)
      (rest : Nested word formulas) : Nested (.node f solid :: word) (f :: formulas)
  | construction {inner word : List Letter} {contents formulas : List Formula} {opener : Opener}
      {ender : Ender} (offset offset' : Option Int) (ends : opener.endsWith ender = true)
      (inside : Nested inner contents) (rest : Nested word formulas) :
      Nested (.opening opener offset :: inner ++ .closing ender offset' :: word)
        (opener.built ender contents :: formulas)

/-- The formula of a whole word: the only one, or an inferred row. -/
def Formula.whole : List Formula → Formula
  | [f] => f
  | fs => { kind := "mrow", children := fs, inferred := true }

/-- The word begins a nested word. -/
def Begins (word : List Letter) : Prop := ∃ rest formulas, Nested (word ++ rest) formulas

theorem Nested.append {word word' : List Letter} {fs gs : List Formula} (h : Nested word fs)
    (h' : Nested word' gs) : Nested (word ++ word') (fs ++ gs) := by
  induction h with
  | empty => exact h'
  | node f solid _ ih => exact .node f solid ih
  | construction offset offset' ends inside _ _ ih =>
    simp only [List.cons_append, List.append_assoc]
    exact .construction offset offset' ends inside ih

theorem Opener.built_isSolid (opener : Opener) (ender : Ender) (contents : List Formula) :
    (opener.built ender contents).IsSolid := by
  cases opener <;> cases ender <;> simp [Formula.IsSolid, built, fencedRow]

theorem Nested.isSolid {word : List Letter} {fs : List Formula} (h : Nested word fs) :
    ∀ f ∈ fs, f.IsSolid := by
  induction h with
  | empty => exact fun f hf => absurd hf List.not_mem_nil
  | node f solid _ ih => exact List.forall_mem_cons.2 ⟨solid, ih⟩
  | @construction _ _ contents _ opener ender _ _ _ _ _ _ ih =>
    exact List.forall_mem_cons.2 ⟨opener.built_isSolid ender contents, ih⟩

/-! ### Frames -/

/-- What is open: a construction, or the whole text. -/
abbrev Holder := Option (Opener × Option Int)

namespace Holder

/-- The kind of frame that is open. -/
def kind : Holder → FrameKind
  | none => FrameKinds.startKind
  | some (opener, _) => opener.kind

/-- An open frame with some formulas in it. -/
def frame (holder : Holder) (contents : List Formula) : Frame where
  kind := holder.kind
  properties := (holder.map fun opened => opened.1.properties).getD []
  openedWith := (holder.map fun opened => opened.1.properties).getD []
  nodes := contents.map some
  offset := holder.bind Prod.snd

/-- What is said of an end that does not belong to what is open. -/
def refusal (holder : Holder) (ender : Ender) : TexCause :=
  match holder, ender with
  | some (.environment name, _), .environment other =>
    .unexpectedClose "begin" (.text (Frame.endOf other))
      (some (Frame.beginOf name ++ " ended with " ++ Frame.endOf other))
  | _, _ => .unexpectedClose holder.kind.name (.text ender.kind.name)
      (holder.kind.wordings.get? ender.kind.name)

/-- What is said of the end of the text while a construction is open. -/
def unterminated (opener : Opener) (offset : Option Int) : TexError :=
  ⟨.unterminated opener.kind.name opener.properties, offset⟩

/-- What is open may end so. -/
def endsWith (holder : Holder) (ender : Ender) : Prop :=
  ∃ opener offset, holder = some (opener, offset) ∧ opener.endsWith ender = true

end Holder

section

variable {holder : Holder} {contents : List Formula} {below : Stack}

theorem mapM_id_map_some (fs : List Formula) : (fs.map some).mapM id = some fs := by
  induction fs with
  | nil => rfl
  | cons f rest ih =>
    rw [List.map_cons, List.mapM_cons, ih]
    rfl

theorem Formula.flatMap_contents {fs : List Formula} (h : ∀ f ∈ fs, f.IsSolid) :
    fs.flatMap Formula.contents = fs := by
  induction fs with
  | nil => rfl
  | cons f rest ih =>
    rw [List.flatMap_cons, ih fun g hg => h g (List.mem_cons_of_mem _ hg), Formula.contents,
      h f (List.mem_cons_self ..)]
    rfl

theorem Holder.grouped_frame (holder : Holder) (h : ∀ f ∈ contents, f.IsSolid) :
    (holder.frame contents).grouped =
      .ok { kind := "mrow", children := contents, inferred := true } := by
  rw [Frame.grouped, Frame.formulas, Holder.frame]
  simp only [mapM_id_map_some, Except.map, Formula.inferredRow, Formula.put, List.nil_append,
    Formula.flatMap_contents h]

theorem Holder.row_frame (holder : Holder) (h : ∀ f ∈ contents, f.IsSolid) :
    (holder.frame contents).row = .ok (some (Formula.whole contents)) := by
  rw [Frame.row, Holder.grouped_frame holder h]
  rcases contents with _ | ⟨f, _ | ⟨g, rest⟩⟩ <;> rfl

theorem Stack.push_finished (holder : Holder) (contents : List Formula) (below : Stack)
    (f : Formula) :
    Stack.push .withBraket (holder.frame contents :: below) (Frame.finished f) =
      { stack := holder.frame (contents ++ [f]) :: below } := by
  have hcheck : (holder.frame contents).check .withBraket (Frame.finished f) =
      ((holder.frame contents).take (Frame.finished f), .ok .absorb) := by
    match holder with
    | none => rfl
    | some (.group, _) => rfl
    | some (.braket _, _) => rfl
    | some (.fence _, _) => rfl
    | some (.environment _, _) => rfl
  rw [Stack.push, hcheck]
  simp [Frame.take, Holder.frame, Frame.finished, Frame.first]

theorem Stack.push_opening (holder : Holder) (contents : List Formula) (below : Stack) (opener : Opener)
    (offset : Option Int) :
    Stack.push .withBraket (holder.frame contents :: below) (Letter.opening opener offset).item =
      { stack := Holder.frame (some (opener, offset)) [] :: holder.frame contents :: below } := by
  have hcheck : (holder.frame contents).check .withBraket (Letter.opening opener offset).item =
      (holder.frame contents, .ok .keep) := by
    match holder with
    | none => cases opener <;> rfl
    | some (.group, _) => cases opener <;> rfl
    | some (.braket _, _) => cases opener <;> rfl
    | some (.fence _, _) => cases opener <;> rfl
    | some (.environment _, _) => cases opener <;> rfl
  rw [Stack.push, hcheck]
  rfl

theorem Frame.finish_eq_close {frame : Frame} {formula : Formula}
    (h : frame.result = .ok (some formula)) :
    frame.finish .withBraket = .ok (.close (Frame.finished formula)) := by
  rw [Frame.finish, h]
  rfl

theorem Formula.fenced_eq_fencedRow {stretchy : Bool} {a b : Value} {fs : List Formula} (inner : Formula)
    (hinner : inner.contents = fs) :
    Formula.fenced stretchy a inner b = Opener.fencedRow stretchy a fs b := by
  have htoken : ∀ (v : Value) (c : TexClass),
      (Formula.token "mo" v (Formula.fence stretchy) (some c)).contents =
        [Formula.token "mo" v (Formula.fence stretchy) (some c)] := fun v c => rfl
  simp [Formula.fenced, Formula.node, Formula.put, Opener.fencedRow, hinner, htoken]

theorem Formula.contents_whole (h : ∀ f ∈ contents, f.IsSolid) :
    (Formula.whole contents).contents = contents := by
  match contents with
  | [] => rfl
  | [f] =>
    rw [Formula.whole, Formula.contents, h f (List.mem_cons_self ..)]
    rfl
  | f :: g :: rest => rfl

/-- The frame as its end leaves it: one between fences takes over the second fence. -/
def Frame.endedBy (frame : Frame) : Ender → Frame
  | .fence closer => frame.set "close" closer
  | _ => frame

theorem Holder.result_endedBy {opener : Opener} {ender : Ender} (hends : opener.endsWith ender = true)
    (offset : Option Int) (hsolid : ∀ f ∈ contents, f.IsSolid) :
    ((Holder.frame (some (opener, offset)) contents).endedBy ender).result =
      .ok (some (opener.built ender contents)) := by
  have hgrouped := Holder.grouped_frame (some (opener, offset)) hsolid
  have hnode (kind : Value) (attributes : Fields Value) (texClass : Option TexClass) :
      Formula.node kind [{ kind := "mrow", children := contents, inferred := true }] attributes
        texClass = { kind, children := contents, attributes, texClass } := by
    simp [Formula.node, Formula.put, Formula.contents]
  cases opener with
  | group =>
    obtain rfl : ender = .group := by cases ender <;> first | rfl | cases hends
    change (do
      let row ← (Holder.frame (some (.group, offset)) contents).grouped
      return some (Formula.node "TeXAtom" [row] [] (some .ord))) = _
    rw [hgrouped]
    exact congrArg (fun f => Except.ok (some f)) (hnode ..)
  | braket properties =>
    obtain rfl : ender = .group := by cases ender <;> first | rfl | cases hends
    have hrow := Holder.row_frame (some (.braket properties, offset)) hsolid
    change ((Holder.frame (some (.braket properties, offset)) contents).row >>= _) = _
    rw [hrow]
    exact congrArg (fun f => Except.ok (some f)) (Formula.fenced_eq_fencedRow _ (Formula.contents_whole hsolid))
  | fence delimiter =>
    obtain ⟨closer, rfl⟩ : ∃ closer, ender = .fence closer := by
      cases ender <;> first | exact ⟨_, rfl⟩ | cases hends
    change (do
      let row ← (Holder.frame (some (.fence delimiter, offset)) contents).grouped
      return some (Formula.fenced true delimiter row closer)) = _
    rw [hgrouped]
    exact congrArg (fun f => Except.ok (some f)) (Formula.fenced_eq_fencedRow _ rfl)
  | environment name =>
    obtain ⟨other, rfl⟩ : ∃ other, ender = .environment other := by
      cases ender <;> first | exact ⟨_, rfl⟩ | cases hends
    change (do
      let row ← (Holder.frame (some (.environment name, offset)) contents).grouped
      return some (Formula.node "mrow" [row] [("data-environment", name)] none)) = _
    rw [hgrouped]
    exact congrArg (fun f => Except.ok (some f)) (hnode ..)

theorem Stack.push_closing {opener : Opener} {ender : Ender} (hends : opener.endsWith ender = true)
    (offset offset' : Option Int) (hsolid : ∀ f ∈ contents, f.IsSolid) (below : Stack) :
    Stack.push .withBraket (Holder.frame (some (opener, offset)) contents :: below)
        (Letter.closing ender offset').item =
      Stack.push .withBraket below (Frame.finished (opener.built ender contents)) := by
  have hfinish := Frame.finish_eq_close (Holder.result_endedBy hends offset hsolid)
  have hcheck : (Holder.frame (some (opener, offset)) contents).check .withBraket
      (Letter.closing ender offset').item =
        ((Holder.frame (some (opener, offset)) contents).endedBy ender,
          ((Holder.frame (some (opener, offset)) contents).endedBy ender).finish .withBraket) := by
    cases opener <;> cases ender <;> first | rfl | exact if_pos hends
  rw [Stack.push, hcheck, hfinish]

/-- An end that does not belong to what is open is refused, and nothing else changes. -/
theorem Stack.push_refused {ender : Ender} (h : ¬holder.endsWith ender) (contents : List Formula)
    (below : Stack) (offset : Option Int) :
    Stack.push .withBraket (holder.frame contents :: below) (Letter.closing ender offset).item =
      { stack := holder.frame contents :: below
        failure := some (.ofCause (holder.refusal ender)) } := by
  have hcheck : (holder.frame contents).check .withBraket (Letter.closing ender offset).item =
      (holder.frame contents, .error (.ofCause (holder.refusal ender))) := by
    match holder with
    | none => cases ender <;> rfl
    | some (opener, offset') =>
      cases opener <;> cases ender <;>
        first | rfl | exact if_neg fun hends => h ⟨_, _, rfl, hends⟩
  rw [Stack.push, hcheck]

/-- The end of the text is refused while a construction is open. -/
theorem Stack.push_endOfText_some (opener : Opener) (offset offset' : Option Int)
    (contents : List Formula) (below : Stack) :
    Stack.push .withBraket (Holder.frame (some (opener, offset)) contents :: below)
        (Frame.endOfText offset') =
      { stack := Holder.frame (some (opener, offset)) contents :: below
        failure := some (.tex (Holder.unterminated opener offset)) } := by
  have hcheck : (Holder.frame (some (opener, offset)) contents).check .withBraket
      (Frame.endOfText offset') = (Holder.frame (some (opener, offset)) contents,
        .error (.tex (Holder.unterminated opener offset))) := by
    cases opener <;> rfl
  rw [Stack.push, hcheck]

theorem Stack.push_endOfText_none (offset : Option Int) (hsolid : ∀ f ∈ contents, f.IsSolid) :
    Stack.push .withBraket [Holder.frame none contents] (Frame.endOfText offset) =
      { stack := [Frame.finished (Formula.whole contents)] } := by
  have hresult : (Holder.frame none contents).result = .ok (some (Formula.whole contents)) :=
    Holder.row_frame none hsolid
  have hcheck : (Holder.frame none contents).check .withBraket (Frame.endOfText offset) =
      (Holder.frame none contents, (Holder.frame none contents).finish .withBraket) := rfl
  rw [Stack.push, hcheck, Frame.finish_eq_close hresult]
  rfl

end

/-! ### Runs -/

namespace Stack

variable {kinds : FrameKinds} {stack stack' : Stack}

theorem pushAll_cons_of_push {item : Frame} (h : stack.push kinds item = { stack := stack' })
    (items : List Frame) :
    stack.pushAll kinds (item :: items) = stack'.pushAll kinds items := by
  rw [pushAll, h]

theorem pushAll_cons_of_failure {item : Frame} {failure : Failure}
    (h : stack.push kinds item = { stack := stack', failure := some failure })
    (items : List Frame) :
    stack.pushAll kinds (item :: items) = { stack := stack', failure := some failure } := by
  rw [pushAll, h]

theorem pushAll_append {items : List Frame} (h : stack.pushAll kinds items = { stack := stack' })
    (items' : List Frame) :
    stack.pushAll kinds (items ++ items') = stack'.pushAll kinds items' := by
  induction items generalizing stack with
  | nil =>
    obtain rfl : stack = stack' := congrArg Pushed.stack h
    rfl
  | cons item rest ih =>
    rcases hpush : stack.push kinds item with ⟨after, failure⟩
    cases failure with
    | none =>
      rw [pushAll_cons_of_push hpush] at h
      rw [List.cons_append, pushAll_cons_of_push hpush, ih h]
    | some failure =>
      rw [pushAll_cons_of_failure hpush] at h
      exact absurd (congrArg Pushed.failure h) (Option.some_ne_none failure)

end Stack

theorem Nested.pushAll {word : List Letter} {fs : List Formula} (h : Nested word fs)
    (holder : Holder) (contents : List Formula) (below : Stack) :
    Stack.pushAll .withBraket (holder.frame contents :: below) (word.map Letter.item) =
      { stack := holder.frame (contents ++ fs) :: below } := by
  induction h generalizing holder contents below with
  | empty => rw [List.append_nil]; rfl
  | node f solid _ ih =>
    rw [List.map_cons, Letter.item,
      Stack.pushAll_cons_of_push (Stack.push_finished holder contents below f), ih,
      List.append_assoc]
    rfl
  | @construction inner word contents' fs opener ender offset offset' ends inside _ ihInside ihRest =>
    have hinside := ihInside (some (opener, offset)) [] (holder.frame contents :: below)
    have hclosing := Stack.push_closing ends offset offset' inside.isSolid
      (holder.frame contents :: below)
    rw [List.nil_append] at hinside
    rw [Stack.push_finished] at hclosing
    simp only [List.cons_append, List.map_cons, List.map_append]
    rw [Stack.pushAll_cons_of_push (Stack.push_opening holder contents below opener offset),
      Stack.pushAll_append hinside, Stack.pushAll_cons_of_push hclosing, ihRest, List.append_assoc]
    rfl

/-- What a word leaves open, innermost first: the construction, what has been read in it, and the
frames of those around it. -/
inductive Leaves : List Letter → Holder → List Formula → Stack → Prop
  | whole {word : List Letter} {fs : List Formula} (inside : Nested word fs) : Leaves word none fs []
  | opened {before word : List Letter} {holder : Holder} {contents fs : List Formula} {below : Stack}
      (opener : Opener) (offset : Option Int) (around : Leaves before holder contents below)
      (inside : Nested word fs) :
      Leaves (before ++ .opening opener offset :: word) (some (opener, offset)) fs
        (holder.frame contents :: below)

namespace Leaves

variable {word : List Letter} {holder : Holder} {contents : List Formula} {below : Stack}

/-- The stack after a word is what the word leaves open. -/
theorem pushAll (h : Leaves word holder contents below) :
    Stack.pushAll .withBraket [Holder.frame none []] (word.map Letter.item) =
      { stack := holder.frame contents :: below } := by
  induction h with
  | whole inside => exact inside.pushAll none [] []
  | @opened _ _ holder contents _ below opener offset _ inside ih =>
    rw [List.map_append, List.map_cons, Stack.pushAll_append ih,
      Stack.pushAll_cons_of_push (Stack.push_opening holder contents below opener offset),
      inside.pushAll, List.nil_append]

theorem append {word' : List Letter} {fs : List Formula} (h : Leaves word holder contents below)
    (h' : Nested word' fs) : Leaves (word ++ word') holder (contents ++ fs) below := by
  cases h with
  | whole inside => exact .whole (inside.append h')
  | opened opener offset around inside =>
    rw [List.append_assoc, List.cons_append]
    exact .opened opener offset around (inside.append h')

theorem close {ender : Ender} (h : Leaves word holder contents below)
    (hends : holder.endsWith ender) (offset : Option Int) :
    ∃ holder' contents' below',
      Leaves (word ++ [.closing ender offset]) holder' contents' below' := by
  obtain ⟨opener, opened, rfl, hends⟩ := hends
  cases h with
  | opened _ _ around inside =>
    have hclosed := around.append (.construction opened offset hends inside .empty)
    exact ⟨_, _, _, by simpa using hclosed⟩

/-- Everything that a word leaves open can still be ended. -/
theorem exists_nested (h : Leaves word holder contents below) :
    ∃ rest, ∀ {word' : List Letter} {fs : List Formula}, Nested word' fs →
      ∃ formulas, Nested (word ++ word' ++ rest) formulas := by
  induction h with
  | whole inside =>
    exact ⟨[], fun h' => ⟨_, by rw [List.append_nil]; exact inside.append h'⟩⟩
  | @opened before word _ _ _ _ opener offset _ inside ih =>
    obtain ⟨rest, ih⟩ := ih
    refine ⟨.closing opener.ender none :: rest, fun {word'} _ h' => ?_⟩
    obtain ⟨formulas, hnested⟩ :=
      ih (.construction offset none opener.endsWith_ender (inside.append h') .empty)
    exact ⟨formulas, by simpa using hnested⟩

theorem begins (h : Leaves word holder contents below) : Begins word := by
  obtain ⟨rest, hrest⟩ := h.exists_nested
  obtain ⟨formulas, hnested⟩ := hrest .empty
  exact ⟨rest, formulas, by rwa [List.append_nil] at hnested⟩

/-- No nested word goes on with an end that does not belong to what is open. -/
theorem not_begins {ender : Ender} (h : Leaves word holder contents below)
    (hends : ¬holder.endsWith ender) (offset : Option Int) :
    ¬Begins (word ++ [.closing ender offset]) := by
  rintro ⟨rest, formulas, hnested⟩
  have hpushed := hnested.pushAll none [] []
  rw [List.append_assoc, List.map_append, Stack.pushAll_append h.pushAll, List.singleton_append,
    List.map_cons, Stack.pushAll_cons_of_failure (Stack.push_refused hends contents below offset)]
    at hpushed
  exact absurd (congrArg Pushed.failure hpushed) (Option.some_ne_none _)

theorem nested_iff (h : Leaves word holder contents below) :
    (∃ formulas, Nested word formulas) ↔ holder = none := by
  constructor
  · rintro ⟨formulas, hnested⟩
    have hstack := (hnested.pushAll none [] []).symm.trans h.pushAll
    have hlength := congrArg (fun pushed => pushed.stack.length) hstack
    cases h with
    | whole => rfl
    | opened => simp at hlength
  · rintro rfl
    cases h with
    | whole inside => exact ⟨_, inside⟩

end Leaves

/-- A word leaves something open, or there is a first end in it that does not belong to what is
open there. -/
theorem exists_leaves (word : List Letter) :
    (∃ holder contents below, Leaves word holder contents below) ∨
      ∃ before ender offset after holder contents below,
        word = before ++ .closing ender offset :: after ∧
          Leaves before holder contents below ∧ ¬holder.endsWith ender := by
  induction word using List.reverseRecOn with
  | nil => exact .inl ⟨none, [], [], .whole .empty⟩
  | append_singleton word letter ih =>
    rcases ih with ⟨holder, contents, below, h⟩ | ⟨before, ender, offset, after, holder, contents, below, rfl, h, hends⟩
    · cases letter with
      | node f solid => exact .inl ⟨_, _, _, h.append (.node f solid .empty)⟩
      | opening opener offset => exact .inl ⟨_, _, _, .opened opener offset h .empty⟩
      | closing ender offset =>
        by_cases hends : holder.endsWith ender
        · exact .inl (h.close hends offset)
        · exact .inr ⟨word, ender, offset, [], holder, contents, below, rfl, h, hends⟩
    · exact .inr ⟨before, ender, offset, after ++ [letter], holder, contents, below, by simp, h,
        hends⟩

/-- The stack reads exactly the nested words.  It does not fail at a nested word and the end of the
text, and holds the formula of the word then.  At any other word it fails at the first item with
which no nested word begins: at an end that does not belong to what is open, or at the end of the
text, where it names the innermost construction that is open and where that began. -/
theorem Stack.pushAll_word (word : List Letter) (offset : Option Int) {start : Stack}
    (hstart : Stack.initial .withBraket = .ok start) :
    let outcome := start.pushAll .withBraket (word.map Letter.item ++ [Frame.endOfText offset])
    (outcome.failure = none ↔ ∃ formulas, Nested word formulas) ∧
      (∀ formulas, Nested word formulas →
        outcome = { stack := [Frame.finished (Formula.whole formulas)] }) ∧
      ∀ failure, outcome.failure = some failure →
        (∃ opener opened contents below, Begins word ∧
          Leaves word (some (opener, opened)) contents below ∧
          failure = .tex (Holder.unterminated opener opened)) ∨
        ∃ before ender ended after holder contents below,
          word = before ++ .closing ender ended :: after ∧
          Begins before ∧ ¬Begins (before ++ [.closing ender ended]) ∧
          Leaves before holder contents below ∧
          start.pushAll .withBraket (before.map Letter.item) =
            { stack := holder.frame contents :: below } ∧
          failure = .ofCause (holder.refusal ender) := by
  obtain rfl : [Holder.frame none []] = start := Except.ok.inj hstart
  have hnested {formulas : List Formula} (h : Nested word formulas) :
      pushAll .withBraket [Holder.frame none []] (word.map Letter.item ++ [Frame.endOfText offset]) =
        { stack := [Frame.finished (Formula.whole formulas)] } := by
    rw [pushAll_append (h.pushAll none [] []), List.nil_append,
      pushAll_cons_of_push (push_endOfText_none offset h.isSolid)]
    rfl
  rcases exists_leaves word with ⟨holder, contents, below, h⟩ |
    ⟨before, ender, ended, after, holder, contents, below, rfl, h, hends⟩
  · cases holder with
    | none =>
      obtain ⟨formulas, hword⟩ := h.nested_iff.2 rfl
      rw [hnested hword]
      refine ⟨⟨fun _ => ⟨formulas, hword⟩, fun _ => rfl⟩, fun gs hgs => ?_, fun failure hfailure =>
        absurd hfailure.symm (Option.some_ne_none failure)⟩
      exact (hnested hword).symm.trans (hnested hgs)
    | some opened =>
      obtain ⟨opener, opened⟩ := opened
      have hnot : ¬∃ formulas, Nested word formulas := fun hword =>
        Option.some_ne_none _ (h.nested_iff.1 hword)
      rw [pushAll_append h.pushAll,
        pushAll_cons_of_failure (push_endOfText_some opener opened offset contents below)]
      refine ⟨⟨fun hnone => absurd hnone (Option.some_ne_none _), fun hword => absurd hword hnot⟩,
        fun formulas hword => absurd ⟨formulas, hword⟩ hnot, fun failure hfailure => .inl ?_⟩
      exact ⟨opener, opened, contents, below, h.begins, h, (Option.some.inj hfailure).symm⟩
  · have hnot : ¬∃ formulas, Nested (before ++ .closing ender ended :: after) formulas :=
      fun ⟨formulas, hword⟩ => h.not_begins hends ended
        ⟨after, formulas, by rwa [List.append_assoc, List.singleton_append]⟩
    rw [List.map_append, List.append_assoc, pushAll_append h.pushAll, List.map_cons,
      List.cons_append, pushAll_cons_of_failure (push_refused hends contents below ended)]
    refine ⟨⟨fun hnone => absurd hnone (Option.some_ne_none _), fun hword => absurd hword hnot⟩,
      fun formulas hword => absurd ⟨formulas, hword⟩ hnot, fun failure hfailure => .inr ?_⟩
    exact ⟨before, ender, ended, after, holder, contents, below, rfl, h.begins,
      h.not_begins hends ended, h, h.pushAll, (Option.some.inj hfailure).symm⟩

/-- A bra-ket in an environment between fences, and after it the fenced formula. -/
theorem Stack.pushAll_word_fencedEnvironment :
    let x : Formula := .token "mi" "x" [] none
    let angles : Fields Value := [("open", "⟨"), ("close", "⟩"), ("stretchy", .truth false)]
    let word : List Letter :=
      [.opening (.fence "(") (some 0), .opening (.environment "a") (some 6),
        .opening (.braket angles) (some 15), .node x rfl, .closing .group (some 24),
        .closing (.environment "a") (some 25), .closing (.fence "]") (some 32), .node x rfl]
    Stack.initial .withBraket = .ok [Holder.frame none []] ∧
      Stack.pushAll .withBraket [Holder.frame none []]
          (word.map Letter.item ++ [Frame.endOfText (some 40)]) =
        { stack := [Frame.finished (.inferredRow
            [Opener.fencedRow true "("
              [{ kind := "mrow", attributes := [("data-environment", "a")]
                 children := [Opener.fencedRow false "⟨" [x] "⟩"] }] "]", x])] } := by
  intro x angles word
  have hbraket : Nested [.opening (.braket angles) (some 15), .node x rfl, .closing .group (some 24)]
      [Opener.fencedRow false "⟨" [x] "⟩"] :=
    .construction _ _ rfl (.node x rfl .empty) .empty
  have henvironment := @Nested.construction _ _ _ _ (.environment "a") (.environment "a")
    (some 6) (some 25) rfl hbraket .empty
  have hword : Nested word _ := @Nested.construction _ _ _ _ (.fence "(") (.fence "]")
    (some 0) (some 32) rfl henvironment (.node x rfl .empty)
  exact ⟨rfl, (Stack.pushAll_word word (some 40) rfl).2.1 _ hword⟩

end Formulary
