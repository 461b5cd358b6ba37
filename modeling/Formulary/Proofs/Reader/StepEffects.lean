import Formulary.Tex.Reader

/-! # What a step can do

Whatever a token means, carrying it out comes to one of a few things (`Reader.Effect`): it fails for
a cause that lies in the token and what follows it, it puts an expansion in front of the input, or
it takes some of the input and pushes.  What is pushed is a node from a short list (`Action.Makes`)
or a new item with properties that are all known (`Action.Pushes`).  What holds of every step is
read off these cases (`Reader.perform_effect`).

An item, when it is pushed, does one of a few things to the frame on top (`Frame.check_decides`),
and a frame that ends becomes one of a few nodes (`Frame.builds_of_result`). -/

namespace Formulary

/-! ### What a meaning brings in -/

/-- The causes for which the meaning of a token cannot be carried out, before anything is pushed. -/
inductive TexCause.IsOfToken : TexCause → Prop
  | undefinedCommand (command : String) : IsOfToken (.undefinedCommand command)
  | missingArgument (command : String) : IsOfToken (.missingArgument command)
  | extraCloseBrace : IsOfToken .extraCloseBrace
  | missingCloseBrace : IsOfToken .missingCloseBrace
  | missingDelimiter (command : String) : IsOfToken (.missingDelimiter command)
  | tooManyExpansions : IsOfToken .tooManyExpansions
  | illegalParameter : IsOfToken .illegalParameter

/-- The nodes that the meaning of the token `t` pushes. -/
inductive Action.Makes (t : Token) : Action → Formula → Prop
  | identifier : Makes t .identifier (.token "mi" t.text [] none)
  | number : Makes t .number (.token "mn" t.text [] none)
  | other (stretchy : Fields Value) (h : stretchy = [] ∨ stretchy = [("stretchy", .truth false)]) :
      Makes t .other (.token "mo" t.text stretchy (some (Vocabulary.operatorClass t.text)))
  | mathChar (char : Value) (kind : Option Value) :
      Makes t (.mathChar char kind) (.token (kind.getD "mi") char [] none)
  | mathOp (char : Value) (style : Option (TexClass × Option Value)) (texClass : TexClass)
      (stretchy : Fields Value) (h : stretchy = [] ∨ ∃ value, stretchy = [("stretchy", value)]) :
      Makes t (.mathOp char style) (.token "mo" char stretchy (some texClass))
  | space (width : Value) : Makes t (.space width) (.token "mspace" "" [("width", width)] none)
  | linebreak : Makes t .linebreak (.token "mspace" "" [("linebreak", .text "newline")] none)
  | plainBar (spelling : String) : Makes t .bar (Reader.plainBar spelling)
  | separator (spelling : String) (stretchy : Bool) :
      Makes t .bar (Reader.separator spelling stretchy)
  | atom (side : TexClass) : Makes t .bar (.node "TeXAtom" [] [] (some side))

/-- The kinds and the properties of the new items that the meaning of the token `t` pushes. -/
inductive Action.Pushes (t : Token) : Action → String → Fields Value → Prop
  | openGroup : Pushes t .openGroup "open" []
  | closeGroup : Pushes t .closeGroup "close" [("name", .text t.text)]
  | left (fence : String) : Pushes t .left "left" [("delim", .text fence)]
  | right (fence : String) :
      Pushes t .right "right" [("delim", .text fence), ("name", .text t.text)]
  | begin (env : String) : Pushes t .begin "begin" [("env", .text env)]
  | finish (env : String) :
      Pushes t .finish "end" [("env", .text env), ("name", .text (Frame.endOf (.text env)))]
  | braket (opener closer stretchy limit : Value) :
      Pushes t (.braket opener closer stretchy limit) "braket" [("barmax", limit),
        ("barcount", .integer 0), ("open", opener), ("close", closer), ("stretchy", stretchy)]

/-! ### What a frame becomes -/

namespace Frame

/-- The nodes of the frame as one node. -/
inductive Rows (frame : Frame) : Formula → Prop
  | only {f : Formula} (h : some f ∈ frame.nodes) : Rows frame f
  | row {fs : List Formula} (h : ∀ f ∈ fs, some f ∈ frame.nodes) : Rows frame (.inferredRow fs)

/-- The nodes that the frame can become. -/
inductive Builds (frame : Frame) : Formula → Prop
  | plain {f : Formula} (hf : Rows frame f) : Builds frame f
  | atom {row : Formula} (hrow : Rows frame row) :
      Builds frame (.node "TeXAtom" [row] [] (some .ord))
  | environment {row : Formula} (hrow : Rows frame row) :
      Builds frame (.node "mrow" [row] [("data-environment", frame.get "env" .absent)] none)
  | fence {row : Formula} (h : frame.kind.build = some .fence) (hrow : Rows frame row) :
      Builds frame (.fenced true (frame.get "delim" .absent) row (frame.get "close" .absent))
  | braket {row : Formula} (stretchy : Bool) (h : frame.kind.build = some .braket)
      (hrow : Rows frame row) :
      Builds frame (.fenced stretchy (frame.get "open" .absent) row (frame.get "close" .absent))

/-- What an item can do to a frame. -/
inductive Decides (kinds : FrameKinds) (frame item : Frame) : Frame × Except Failure Verdict → Prop
  | rejects (failure : Failure) : Decides kinds frame item (frame, .error failure)
  | keeps : Decides kinds frame item (frame, .ok .keep)
  | takes : Decides kinds frame item (frame.take item, .ok .absorb)
  | finishes (h : frame.kind.rule ≠ some .fence) :
      Decides kinds frame item (frame, frame.finish kinds)
  /-- The frame takes over the right fence. -/
  | closes (h : item.isKind "right" = true) : Decides kinds frame item
      (frame.set "close" (item.get "delim" .absent),
        (frame.set "close" (item.get "delim" .absent)).finish kinds)

variable {kinds : FrameKinds} {frame item : Frame} {f : Formula} {fs : List Formula}

theorem mem_of_formulas (h : frame.formulas = .ok fs) : ∀ f ∈ fs, some f ∈ frame.nodes := by
  rw [formulas] at h
  split at h
  · rename_i hall
    cases h
    generalize frame.nodes = nodes at hall
    induction nodes generalizing fs with
    | nil =>
      cases hall
      exact fun f hf => absurd hf List.not_mem_nil
    | cons node rest ih =>
      simp only [List.mapM_cons, bind, pure, Option.bind_eq_some_iff, Option.some.injEq] at hall
      obtain ⟨g, rfl, others, hothers, rfl⟩ := hall
      intro f hf
      rcases List.mem_cons.1 hf with rfl | hf
      · exact List.mem_cons_self ..
      · exact List.mem_cons_of_mem _ (ih hothers f hf)
  · cases h

theorem rows_of_grouped (h : frame.grouped = .ok f) : frame.Rows f := by
  rw [grouped] at h
  cases hfs : frame.formulas with
  | error failure =>
    rw [hfs] at h
    cases h
  | ok fs =>
    rw [hfs] at h
    cases h
    exact .row (mem_of_formulas hfs)

theorem rows_of_row (h : frame.row = .ok (some f)) : frame.Rows f := by
  rw [row] at h
  split at h
  · rename_i g hnodes
    cases h
    exact .only (hnodes ▸ List.mem_singleton_self _)
  · cases hrow : frame.grouped with
    | error failure =>
      rw [hrow] at h
      cases h
    | ok g =>
      rw [hrow] at h
      cases h
      exact rows_of_grouped hrow

/-- A frame becomes one of these nodes. -/
theorem builds_of_result (h : frame.result = .ok (some f)) : frame.Builds f := by
  rw [result] at h
  split at h
  · exact .plain (rows_of_row h)
  · obtain ⟨row, hrow, h⟩ := Reader.exists_ok_of_bind h
    cases h
    exact .atom (rows_of_grouped hrow)
  · obtain ⟨row, hrow, h⟩ := Reader.exists_ok_of_bind h
    cases h
    exact .environment (rows_of_grouped hrow)
  · rename_i hbuild
    obtain ⟨row, hrow, h⟩ := Reader.exists_ok_of_bind h
    cases h
    exact .fence hbuild (rows_of_grouped hrow)
  · rename_i hbuild
    obtain ⟨row, hrow, h⟩ := Reader.exists_ok_of_bind h
    split at h
    · cases h
    · cases h
      exact .braket _ hbuild (rows_of_row hrow)

theorem finish_eq_ok {verdict : Verdict} (h : frame.finish kinds = .ok verdict) :
    ∃ built result, verdict = .close result ∧ kinds.wrap built = .ok result ∧
      ∀ f, built = some f → frame.Builds f := by
  obtain ⟨built, hbuilt, h⟩ := Reader.exists_ok_of_bind h
  obtain ⟨result, hresult, h⟩ := Reader.exists_ok_of_bind h
  cases h
  refine ⟨built, result, rfl, hresult, ?_⟩
  rintro f rfl
  exact builds_of_result hbuilt

theorem checkDefault_decides (kinds : FrameKinds) (frame item : Frame) :
    Decides kinds frame item (frame.checkDefault item) := by
  rw [checkDefault]
  split
  · split <;> exact .rejects _
  · split
    · exact .takes
    · exact .keeps

/-- An item does one of these things to a frame. -/
theorem check_decides (kinds : FrameKinds) (frame item : Frame) :
    Decides kinds frame item (frame.check kinds item) := by
  have hdefault := checkDefault_decides kinds frame item
  have hfinish {rule : ClosingRule} (hrule : frame.kind.rule = some rule) (h : rule ≠ .fence) :
      Decides kinds frame item (frame, frame.finish kinds) :=
    .finishes fun hfence => h (Option.some.inj (hrule.symm.trans hfence))
  rw [check]
  split
  · exact hdefault
  all_goals
    rename_i hrule
    split
  · exact hfinish hrule (by decide)
  · exact hdefault
  · exact hfinish hrule (by decide)
  · exact hdefault
  · rename_i hright
    exact .closes hright
  · exact hdefault
  · dsimp only
    split
    · exact hfinish hrule (by decide)
    · exact .rejects _
  · exact hdefault
  · exact hfinish hrule (by decide)
  · split
    · exact .takes
    · exact hdefault

end Frame

/-! ### Looking meanings up -/

theorem Fields.mem_of_get? {α : Type} {fields : Fields α} {name : String} {content : α}
    (h : fields.get? name = some content) : (name, content) ∈ fields := by
  induction fields with
  | nil => simp [Fields.get?] at h
  | cons pair rest ih =>
    obtain ⟨other, old⟩ := pair
    rw [Fields.get?] at h
    split at h
    · rename_i heq
      cases h
      exact heq ▸ List.mem_cons_self ..
    · exact List.mem_cons_of_mem _ (ih h)

theorem Vocabulary.mem_of_find? {vocabulary : Vocabulary} {category : Category} {trigger : String}
    {action : Action} (h : vocabulary.find? category trigger = some action) :
    ∃ lexicon ∈ vocabulary, lexicon.category = category ∧ (trigger, action) ∈ lexicon.entries := by
  induction vocabulary with
  | nil => cases h
  | cons lexicon rest ih =>
    have hrest (h : Vocabulary.find? rest category trigger = some action) :
        ∃ other ∈ lexicon :: rest, other.category = category ∧
          (trigger, action) ∈ other.entries := by
      obtain ⟨other, hmem, hother⟩ := ih h
      exact ⟨other, List.mem_cons_of_mem _ hmem, hother⟩
    rw [Vocabulary.find?] at h
    split at h
    · rename_i hcategory
      split at h
      · rename_i found hget
        cases h
        exact ⟨lexicon, List.mem_cons_self .., hcategory, Fields.mem_of_get? hget⟩
      · exact hrest h
    · exact hrest h

namespace Reader

/-! ### Taking tokens -/

section

variable {command : String} {input found after : List Token} {cause : TexCause}

theorem groupEnd?_subset {depth : Nat} {inside : List Token}
    (h : groupEnd? depth input = some (inside, after)) : inside ⊆ input ∧ after ⊆ input := by
  induction input generalizing depth inside after with
  | nil => cases h
  | cons t rest ih =>
    have deeper {n : Nat} (hn : ((groupEnd? n rest).map fun p => (t :: p.1, p.2)) =
        some (inside, after)) : inside ⊆ t :: rest ∧ after ⊆ t :: rest := by
      obtain ⟨⟨inner, last⟩, hfound, heq⟩ := Option.map_eq_some_iff.1 hn
      obtain ⟨rfl, rfl⟩ := Prod.mk.inj heq
      obtain ⟨hinner, hlast⟩ := ih hfound
      exact ⟨List.cons_subset_cons t hinner, List.subset_cons_of_subset t hlast⟩
    unfold groupEnd? at h
    split at h
    · split at h
      · cases h
        exact ⟨List.nil_subset _, List.subset_cons_self t rest⟩
      · exact deeper h
    · split at h <;> exact deeper h

theorem argument_subset (h : argument command input = .ok (found, after)) :
    found ⊆ input ∧ after ⊆ input := by
  cases input with
  | nil => cases h
  | cons t rest =>
    simp only [argument] at h
    split at h
    · cases h
    · split at h
      · split at h
        · rename_i hend
          cases h
          obtain ⟨hfound, hafter⟩ := groupEnd?_subset hend
          exact ⟨List.subset_cons_of_subset t hfound, List.subset_cons_of_subset t hafter⟩
        · cases h
      · cases h
        exact ⟨by simp, List.subset_cons_self t _⟩

theorem arguments_subset {n : Nat} {given : List (List Token)}
    (h : arguments command n input = .ok (given, after)) :
    (∀ argument ∈ given, argument ⊆ input) ∧ after ⊆ input := by
  induction n generalizing input given after with
  | zero =>
    cases h
    exact ⟨fun _ ha => absurd ha List.not_mem_nil, List.Subset.refl _⟩
  | succ n ih =>
    obtain ⟨⟨first, middle⟩, hfirst, h⟩ := exists_ok_of_bind h
    obtain ⟨⟨others, last⟩, hothers, h⟩ := exists_ok_of_bind h
    cases h
    obtain ⟨hfound, hmiddle⟩ := argument_subset hfirst
    obtain ⟨hgiven, hlast⟩ := ih hothers
    refine ⟨List.forall_mem_cons.2 ⟨hfound, fun argument ha => ?_⟩, List.Subset.trans hlast hmiddle⟩
    exact List.Subset.trans (hgiven argument ha) hmiddle

theorem delimiter_subset {fence : String} (h : delimiter command input = .ok (fence, after)) :
    after ⊆ input := by
  cases input with
  | nil => cases h
  | cons t rest =>
    simp only [delimiter] at h
    split at h <;> cases h
    exact List.subset_cons_self t _

theorem mergeBars_subset (single : String) (input : List Token) :
    (mergeBars single input).2 ⊆ input := by
  cases input with
  | nil => exact List.Subset.refl _
  | cons t rest =>
    rw [mergeBars]
    split
    · exact List.subset_cons_self t rest
    · exact List.Subset.refl _

/-- A token of an expansion is one of an argument, or one of the template at the command's place. -/
theorem mem_of_substitute {command : Token} {given : List (List Token)}
    {template expansion : List Token} (h : substitute command given template = .ok expansion)
    {u : Token} (hu : u ∈ expansion) :
    (∃ argument ∈ given, u ∈ argument) ∨
      ∃ v ∈ template, v.kind ≠ .parameter ∧ u = { v with start := command.start } := by
  induction template generalizing expansion with
  | nil =>
    cases h
    cases hu
  | cons v rest ih =>
    have hrest {others : List Token} (hothers : substitute command given rest = .ok others)
        (hu : u ∈ others) : (∃ argument ∈ given, u ∈ argument) ∨
          ∃ w ∈ v :: rest, w.kind ≠ .parameter ∧ u = { w with start := command.start } :=
      (ih hothers hu).imp_right fun ⟨w, hw, hwu⟩ => ⟨w, List.mem_cons_of_mem v hw, hwu⟩
    rw [substitute] at h
    split at h
    · split at h
      · cases h
      · rename_i argument hargument
        obtain ⟨others, hothers, h⟩ := exists_ok_of_bind h
        cases h
        rcases List.mem_append.1 hu with hu | hu
        · exact .inl ⟨argument, List.mem_of_getElem? hargument, hu⟩
        · exact hrest hothers hu
    · rename_i hkind
      obtain ⟨others, hothers, h⟩ := exists_ok_of_bind h
      cases h
      rcases List.mem_cons.1 hu with hu | hu
      · exact .inr ⟨v, List.mem_cons_self .., hkind, hu⟩
      · exact hrest hothers hu

theorem argument_cause (h : argument command input = .error cause) : cause.IsOfToken := by
  cases input with
  | nil =>
    cases h
    exact .missingArgument command
  | cons t rest =>
    simp only [argument] at h
    split at h
    · cases h
      exact .extraCloseBrace
    · split at h
      · split at h <;> cases h
        exact .missingCloseBrace
      · cases h

theorem arguments_cause {n : Nat} (h : arguments command n input = .error cause) :
    cause.IsOfToken := by
  induction n generalizing input with
  | zero => cases h
  | succ n ih =>
    rw [arguments] at h
    cases hfirst : argument command input with
    | error other =>
      rw [hfirst] at h
      cases h
      exact argument_cause hfirst
    | ok first =>
      rw [hfirst] at h
      cases hothers : arguments command n first.2 with
      | error other =>
        simp only [bind, Except.bind, hothers] at h
        cases h
        exact ih hothers
      | ok others =>
        simp only [bind, Except.bind, hothers] at h
        cases h

theorem delimiter_cause (h : delimiter command input = .error cause) : cause.IsOfToken := by
  cases input with
  | nil =>
    cases h
    exact .missingDelimiter command
  | cons t rest =>
    simp only [delimiter] at h
    split at h <;> cases h
    exact .missingDelimiter command

theorem substitute_cause {command : Token} {given : List (List Token)} {template : List Token}
    (h : substitute command given template = .error cause) : cause.IsOfToken := by
  induction template with
  | nil => cases h
  | cons v rest ih =>
    have hrest {f : List Token → Except TexCause (List Token)} (hf : ∀ others, ∃ x, f others = .ok x)
        (h : (substitute command given rest >>= f) = .error cause) : cause.IsOfToken := by
      cases hothers : substitute command given rest with
      | error other =>
        rw [hothers] at h
        cases h
        exact ih hothers
      | ok others =>
        obtain ⟨x, hx⟩ := hf others
        rw [hothers] at h
        exact absurd (hx.symm.trans h) (by simp)
    rw [substitute] at h
    split at h
    · split at h
      · cases h
        exact .illegalParameter
      · exact hrest (fun _ => ⟨_, rfl⟩) h
    · exact hrest (fun _ => ⟨_, rfl⟩) h

/-- The meanings that tokens have by their kind. -/
def plainMeanings : List Action := [.identifier, .number, .illegalParameter, .other]

/-- What holds of all that a vocabulary says holds of what a token means. -/
theorem meaning_keeps {vocabulary : Vocabulary} {P : Action → Prop}
    (hv : ∀ lexicon ∈ vocabulary, ∀ entry ∈ lexicon.entries, P entry.2)
    (hplain : ∀ action ∈ plainMeanings, P action) {t : Token} {action : Action}
    (h : meaning vocabulary t = .ok action) : P action := by
  have hfound {category : Category} {trigger : String} {found : Action}
      (hfind : vocabulary.find? category trigger = some found) : P found := by
    obtain ⟨lexicon, hlexicon, -, hentry⟩ := Vocabulary.mem_of_find? hfind
    exact hv lexicon hlexicon _ hentry
  rw [meaning] at h
  split at h
  · split at h
    · rename_i hfind
      cases h
      exact hfound hfind
    · cases h
  · split at h
    · rename_i hfind
      cases h
      exact hfound hfind
    · cases h
      refine hplain _ ?_
      split <;> decide

theorem meaning_cause {vocabulary : Vocabulary} {t : Token}
    (h : meaning vocabulary t = .error cause) : cause.IsOfToken := by
  rw [meaning] at h
  split at h
  · split at h <;> cases h
    exact .undefinedCommand _
  · split at h <;> cases h

end

/-! ### Effects -/

/-- What carrying out the meaning of the token `t` can come to. -/
inductive Effect (d : Dialect) (t : Token) (r : Reader) : Action → Except Failure Reader → Prop
  /-- The meaning cannot be carried out. -/
  | fails {action : Action} {cause : TexCause} (h : cause.IsOfToken) :
      Effect d t r action (.error (.ofCause cause))
  /-- Something is asked for that is not there. -/
  | faults {action : Action} (fault : Fault) : Effect d t r action (.error (.fault fault))
  /-- A template is no text, or not one of tokens. -/
  | misspelled {text : Value} {arity : Option Value} {failure : Failure}
      (h : templateTokens text = .error failure) :
      Effect d t r (.template text arity) (.error failure)
  /-- The input is expanded. -/
  | expands {text : Value} {arity : Option Value} {template input : List Token} (expansions : Nat)
      (htemplate : templateTokens text = .ok template)
      (hinput : ∀ u ∈ input, u ∈ r.input ∨
        ∃ v ∈ template, v.kind ≠ .parameter ∧ u = { v with start := t.start }) :
      Effect d t r (.template text arity) (.ok { r with input, expansions })
  /-- A node is pushed. -/
  | adds {action : Action} {f : Formula} {input : List Token} (hinput : input ⊆ r.input)
      (hf : action.Makes t f) : Effect d t r action (pushNode d { r with input } f)
  /-- A bar is counted, and nodes are pushed. -/
  | separates {top : Frame} {below : Stack} {fs : List Formula} {input : List Token} (count : Int)
      (hstack : r.stack = top :: below) (hinput : input ⊆ r.input)
      (hfs : ∀ f ∈ fs, Action.bar.Makes t f) :
      Effect d t r .bar
        (pushNodes d { r with stack := top.set "barcount" (.integer count) :: below, input } fs)
  /-- A new item is pushed. -/
  | pushes {action : Action} {kind : String} {properties : Fields Value} {input : List Token}
      (hinput : input ⊆ r.input) (h : action.Pushes t kind properties) :
      Effect d t r action (pushNew d t.start { r with input } kind properties)

section

variable {d : Dialect} {t : Token} {r : Reader}

theorem separate_effect (single : String) (count : Int) {top : Frame} {below : Stack}
    (hstack : r.stack = top :: below) :
    Effect d t r .bar (r.separate d single count top below) := by
  have hinput := mergeBars_subset single r.input
  rw [separate]
  split
  rename_i spelling input hmerge
  rw [hmerge] at hinput
  split
  · refine .separates _ hstack hinput fun f hf => ?_
    simp only [List.mem_cons, List.not_mem_nil, or_false] at hf
    rcases hf with rfl | rfl | rfl
    · exact .atom .closing
    · exact .separator spelling true
    · exact .atom .opening
  · exact .adds hinput (.separator spelling false)

theorem bar_effect (command : String) : Effect d t r .bar (r.bar d command) := by
  have hplain (spelling : String) : Effect d t r .bar (r.pushNode d (plainBar spelling)) :=
    .adds (List.Subset.refl _) (.plainBar spelling)
  rw [bar]
  split
  · exact .faults _
  · rename_i top below hstack
    split
    · split
      · exact .faults _
      · split
        · exact .faults _
        · exact hplain _
        · exact separate_effect _ _ hstack
    · exact hplain _

theorem effect_of_taking {α : Type} {action : Action} {x : Except TexCause α}
    {f : α → Except Failure Reader} (hx : ∀ cause, x = .error cause → cause.IsOfToken)
    (hf : ∀ a, x = .ok a → Effect d t r action (f a)) :
    Effect d t r action (x.mapError .ofCause >>= f) := by
  cases h : x with
  | error cause => exact .fails (hx cause h)
  | ok a => exact hf a h

theorem expand_effect (text : Value) (arity : Option Value) (n : Nat) :
    Effect d t r (.template text arity) (r.expand t text n) := by
  refine effect_of_taking (fun _ => arguments_cause) fun found harguments => ?_
  obtain ⟨given, input⟩ := found
  obtain ⟨hgiven, hinput⟩ := arguments_subset harguments
  dsimp only
  split
  · exact .fails .tooManyExpansions
  · rename_i expansions _
    cases htemplate : templateTokens text with
    | error failure => exact .misspelled htemplate
    | ok template =>
      refine effect_of_taking (fun _ => substitute_cause) fun expansion hexpansion => ?_
      refine .expands expansions htemplate fun u hu => ?_
      rcases List.mem_append.1 hu with hu | hu
      · rcases mem_of_substitute hexpansion hu with hmem | hbrought
        · obtain ⟨argument, hargument, hu⟩ := hmem
          exact .inl (hgiven argument hargument hu)
        · exact .inr hbrought
      · exact .inl (hinput hu)

/-- Carrying out a meaning has one of the effects. -/
theorem perform_effect (action : Action) : Effect d t r action (r.perform d t action) := by
  have hall : r.input ⊆ r.input := List.Subset.refl _
  cases action with
  | identifier => exact .adds hall .identifier
  | number => exact .adds hall .number
  | other =>
    rw [perform]
    refine .adds hall (.other _ ?_)
    split
    · exact .inr rfl
    · exact .inl rfl
  | openGroup => exact .pushes hall .openGroup
  | closeGroup => exact .pushes hall .closeGroup
  | mathChar char kind => exact .adds hall (.mathChar char kind)
  | mathOp char style =>
    rw [perform]
    split
    refine .adds hall (.mathOp char style _ _ ?_)
    split
    · exact .inl rfl
    · exact .inr ⟨_, rfl⟩
  | left =>
    refine effect_of_taking (fun _ => delimiter_cause) fun found hfound => ?_
    exact .pushes (delimiter_subset hfound) (.left found.1)
  | right =>
    refine effect_of_taking (fun _ => delimiter_cause) fun found hfound => ?_
    exact .pushes (delimiter_subset hfound) (.right found.1)
  | begin =>
    refine effect_of_taking (fun _ => argument_cause) fun found hfound => ?_
    exact .pushes (argument_subset hfound).2 (.begin (spelling found.1))
  | finish =>
    refine effect_of_taking (fun _ => argument_cause) fun found hfound => ?_
    exact .pushes (argument_subset hfound).2 (.finish (spelling found.1))
  | space width => exact .adds hall (.space width)
  | linebreak => exact .adds hall .linebreak
  | template text arity =>
    rw [perform]
    split
    · exact expand_effect text arity _
    · exact .faults _
  | illegalParameter => exact .fails .illegalParameter
  | braket opener closer stretchy limit =>
    rw [perform]
    split
    · rename_i next input hinput
      split
      · exact .pushes (hinput ▸ List.subset_cons_self next input) (.braket opener closer stretchy limit)
      · exact .fails (.missingArgument _)
    · exact .fails (.missingArgument _)
  | bar => exact bar_effect t.text
  | misused name details => exact .faults _

end

end Reader

end Formulary
