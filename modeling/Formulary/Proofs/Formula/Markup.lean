import Mathlib.Data.List.Nodup
import Formulary.Formula.Markup
import Formulary.Proofs.Formula.ContentElements
import Formulary.Proofs.Reader.ErrorOffsets
import Formulary.Proofs.Reader.KeptProperties
import Formulary.Proofs.Reader.Outcome

/-! # A formula is shown as it is written

Markup leaves inferred rows out, and the content that shows a formula does not, so the two may
differ.  They say the same of a formula with explicit nodes only (`Formula.AllExplicit`): the
content written with tags around it is the markup (`Formula.fragment_markup`).

Reading TeX comes to such formulas.  Inferred rows do arise, but a row goes into a node with its
children alone (`Formula.PutsExplicit`), and so does the row of a whole text
(`Source.compile_markup`). -/

namespace Formulary

/-! ### Content as text -/

namespace Tree

variable {α : Type}

/-- The attributes of a start tag, with the texts that they hold. -/
def attributesMarkup (attributes : Fields Attribute) : String :=
  String.join (attributes.map fun (name, content) =>
    " " ++ name ++ "=\"" ++ Text.escapeQuoted content.value ++ "\"")

mutual

/-- The tree as text: every element as a pair of tags around its children, and every string escaped
as markup escapes it. -/
def markup : Tree α → String
  | string _ _ value => Text.escape value
  | element _ tag attributes children =>
    "<" ++ tag ++ attributesMarkup attributes ++ ">" ++ markupAll children ++ "</" ++ tag ++ ">"

/-- The trees of a list as text, one after the other. -/
def markupAll : List (Tree α) → String
  | [] => ""
  | t :: rest => t.markup ++ markupAll rest

end

end Tree

/-! ### Attributes -/

theorem Fields.set_of_not_mem {α : Type} {fields : Fields α} {name : String} (content : α)
    (h : name ∉ fields.map Prod.fst) : fields.set name content = fields ++ [(name, content)] := by
  induction fields with
  | nil => rfl
  | cons pair rest ih =>
    obtain ⟨other, old⟩ := pair
    rw [List.map_cons, List.mem_cons, not_or] at h
    rw [set, if_neg (Ne.symm h.1), ih h.2]
    rfl

theorem Fields.ofPairs_eq {α : Type} {pairs : List (String × α)} (h : (pairs.map Prod.fst).Nodup) :
    Fields.ofPairs pairs = pairs := by
  have hfold : ∀ (fields : Fields α) (pairs : List (String × α)),
      ((fields ++ pairs).map Prod.fst).Nodup →
        pairs.foldl (fun fields pair => fields.set pair.1 pair.2) fields = fields ++ pairs := by
    intro fields pairs
    induction pairs generalizing fields with
    | nil => exact fun _ => (List.append_nil fields).symm
    | cons pair rest ih =>
      intro hnodup
      have hnew : pair.1 ∉ fields.map Prod.fst := by
        rw [List.map_append, List.map_cons] at hnodup
        exact fun hmem => (List.disjoint_of_nodup_append hnodup) hmem (List.mem_cons_self ..)
      rw [List.foldl_cons, set_of_not_mem pair.2 hnew, ih]
      · exact List.append_cons .. ▸ rfl
      · rw [← List.append_cons]
        exact hnodup
  exact hfold [] pairs h

theorem Attribute.ofValues_values (tag : String) (values : Fields String) :
    (ofValues tag values).map (fun pair => (pair.1, pair.2.value)) = values := by
  rw [ofValues, List.map_map]
  refine List.map_id'' (fun pair => ?_) values
  obtain ⟨name, value⟩ := pair
  simp only [Function.comp_apply]
  split_ifs <;> rfl

/-- Each name stands once under the tag, and none for a list of words. -/
def Fragment.areSingle (tag : String) (names : List String) : Bool :=
  names.Nodup && names.all fun name => name ∉ wordLists (Text.lowercase tag)

theorem Fragment.attributes_values {tag : String} {pairs : List (String × String)}
    (h : areSingle tag (pairs.map Prod.fst) = true) (children : List Fragment) :
    ∃ attributes, build tag pairs children = Tree.element () tag attributes children ∧
      attributes.map (fun pair => (pair.1, pair.2.value)) = pairs := by
  obtain ⟨hnodup, hwords⟩ := Bool.and_eq_true_iff.1 h
  refine ⟨_, rfl, ?_⟩
  rw [Attribute.ofValues_values, Fields.ofPairs_eq (of_decide_eq_true hnodup)]
  refine (List.map_congr_left fun pair hpair => ?_).trans (List.map_id pairs)
  have hname := List.all_eq_true.1 hwords pair.1 (List.mem_map_of_mem hpair)
  simp only [if_neg (of_decide_eq_true hname)]
  rfl

/-! ### Explicit formulas -/

namespace Formula

mutual

/-- The formula and all formulas in it. -/
def parts : Formula → List Formula
  | ⟨kind, children, attributes, text, texClass, inferred⟩ =>
    ⟨kind, children, attributes, text, texClass, inferred⟩ :: partsAll children

/-- The formulas of a list and all formulas in them. -/
def partsAll : List Formula → List Formula
  | [] => []
  | f :: rest => f.parts ++ partsAll rest

end

theorem parts_eq (f : Formula) : f.parts = f :: partsAll f.children := by
  cases f
  rw [parts]

theorem mem_partsAll {g : Formula} {fs : List Formula} :
    g ∈ partsAll fs ↔ ∃ f ∈ fs, g ∈ f.parts := by
  induction fs with
  | nil => simp [partsAll]
  | cons f rest ih => simp [partsAll, ih]

theorem forall_parts_iff {P : Formula → Prop} {f : Formula} :
    (∀ g ∈ f.parts, P g) ↔ P f ∧ ∀ c ∈ f.children, ∀ g ∈ c.parts, P g := by
  rw [parts_eq, List.forall_mem_cons]
  refine and_congr_right fun _ => ⟨fun h c hc g hg => ?_, fun h g hg => ?_⟩
  · exact h g (mem_partsAll.2 ⟨c, hc, hg⟩)
  · obtain ⟨c, hc, hg⟩ := mem_partsAll.1 hg
    exact h c hc g hg

mutual

theorem induct {motive : Formula → Prop} (step : ∀ f, (∀ c ∈ f.children, motive c) → motive f) :
    ∀ f, motive f
  | ⟨_, children, _, _, _, _⟩ => step _ (inductAll step children)

/-- The same for the formulas of a list. -/
theorem inductAll {motive : Formula → Prop}
    (step : ∀ f, (∀ c ∈ f.children, motive c) → motive f) : ∀ fs : List Formula, ∀ c ∈ fs, motive c
  | [] => fun _ hc => absurd hc List.not_mem_nil
  | f :: rest => fun c hc => by
    rcases List.mem_cons.1 hc with hc | hc
    · exact hc ▸ induct step f
    · exact inductAll step rest c hc

end

/-- The node is no inferred row, its text is one if it is a token, and each of its attributes holds
what it is given. -/
structure IsExplicit (f : Formula) : Prop where
  shown : f.inferred = false
  spelled : f.isToken = true → ∃ s, f.text = .text s
  single : Fragment.areSingle f.shownKind.plain (f.shownAttributes.map Prod.fst) = true

/-- All nodes of the formula are explicit. -/
def AllExplicit (f : Formula) : Prop := ∀ g ∈ f.parts, g.IsExplicit

theorem allExplicit_iff {f : Formula} :
    f.AllExplicit ↔ f.IsExplicit ∧ ∀ c ∈ f.children, c.AllExplicit :=
  forall_parts_iff

theorem attributesMarkup_eq {attributes : Fields Attribute} {shown : Fields Value}
    (h : attributes.map (fun pair => (pair.1, pair.2.value)) =
      shown.map fun pair => (pair.1, pair.2.attributeText)) :
    Tree.attributesMarkup attributes = markupAttributes shown := by
  have hwritten := congrArg (List.map fun pair : String × String =>
    " " ++ pair.1 ++ "=\"" ++ Text.escapeQuoted pair.2 ++ "\"") h
  rw [List.map_map, List.map_map] at hwritten
  exact congrArg String.join hwritten

/-- What stands in the element that shows a formula. -/
def shownContent (f : Formula) : List Fragment :=
  if f.isToken then if f.text.holds then [Fragment.text f.text.plain] else []
  else fragmentAll f.children

theorem fragment_eq (f : Formula) :
    f.fragment = .build f.shownKind.plain f.contentAttributes f.shownContent := by
  cases f
  rw [fragment, shownContent]

/-- The text of a token is its only content, and an empty one none. -/
theorem markupAll_text (s : String) :
    Tree.markupAll (if (Value.text s).holds then [Fragment.text (Value.text s).plain] else []) =
      Text.escape s := by
  by_cases hs : s = ""
  · subst hs
    rfl
  · have hholds : (Value.text s).holds = true := decide_eq_true hs
    rw [if_pos hholds]
    exact String.append_empty

/-- The content that shows a formula of explicit nodes is its markup, written out. -/
theorem fragment_markup (f : Formula) (h : f.AllExplicit) : f.fragment.markup = f.markup := by
  induction f using induct with
  | step f ih =>
    obtain ⟨hf, hchildren⟩ := allExplicit_iff.1 h
    have hall : ∀ cs : List Formula, (∀ c ∈ cs, c ∈ f.children) →
        Tree.markupAll (fragmentAll cs) = markupAll cs := by
      intro cs hcs
      induction cs with
      | nil => rfl
      | cons c rest hrest =>
        obtain ⟨hc, hcs⟩ := List.forall_mem_cons.1 hcs
        rw [fragmentAll, Tree.markupAll, markupAll, ih c hc (hchildren c hc), hrest hcs]
    have hnames : f.contentAttributes.map Prod.fst = f.shownAttributes.map Prod.fst := by
      rw [contentAttributes, List.map_map]
      rfl
    have hsingle : Fragment.areSingle f.shownKind.plain (f.contentAttributes.map Prod.fst) = true :=
      hnames ▸ hf.single
    have hcontent : Tree.markupAll f.shownContent =
        if f.isToken then Text.escape f.text.plain else markupAll f.children := by
      rw [shownContent]
      split
      · rename_i htoken
        obtain ⟨s, hs⟩ := hf.spelled htoken
        rw [hs]
        exact markupAll_text s
      · exact hall f.children fun _ hc => hc
    obtain ⟨attributes, hbuild, hvalues⟩ := Fragment.attributes_values hsingle f.shownContent
    rw [fragment_eq, hbuild, Tree.markup, hcontent, attributesMarkup_eq hvalues, markup_eq, hf.shown]
    rfl

/-! ### Building explicit formulas -/

/-- What the node puts into its parent is explicit. -/
def PutsExplicit (f : Formula) : Prop := ∀ c ∈ f.contents, c.AllExplicit

variable {f : Formula} {fs : List Formula} {kind : Value} {attributes : Fields Value}
  {texClass : Option TexClass}

theorem AllExplicit.puts (h : f.AllExplicit) : f.PutsExplicit := by
  have hshown : f.inferred = false := (allExplicit_iff.1 h).1.shown
  intro c hc
  rw [contents, hshown, Bool.and_false, if_neg Bool.false_ne_true] at hc
  exact List.mem_singleton.1 hc ▸ h

theorem contents_put_explicit (hchildren : f.children = []) (h : ∀ c ∈ fs, c.PutsExplicit) :
    ∀ c ∈ (f.put fs).children, c.AllExplicit := by
  intro c hc
  have hc : c ∈ f.children ++ fs.flatMap contents := hc
  rw [hchildren, List.nil_append] at hc
  obtain ⟨g, hg, hc⟩ := List.mem_flatMap.1 hc
  exact h g hg c hc

theorem allExplicit_token {s : String} (htoken : kind ∈ tokenKinds)
    (hsingle : Fragment.areSingle kind.plain (attributes.map Prod.fst) = true) :
    (token kind (.text s) attributes texClass).AllExplicit := by
  have hatom : kind ≠ "TeXAtom" := by
    rintro rfl
    exact absurd htoken (by decide)
  refine allExplicit_iff.2 ⟨⟨rfl, fun _ => ⟨s, rfl⟩, ?_⟩, fun c hc => absurd hc List.not_mem_nil⟩
  rw [shownKind, shownAttributes, token, if_neg hatom, if_neg hatom]
  exact hsingle

theorem allExplicit_row (h : ∀ c ∈ fs, c.PutsExplicit)
    (hsingle : Fragment.areSingle "mrow" (attributes.map Prod.fst) = true) :
    (node "mrow" fs attributes texClass).AllExplicit :=
  allExplicit_iff.2 ⟨⟨rfl, fun htoken => absurd (of_decide_eq_true htoken)
    (by decide : Value.text "mrow" ∉ tokenKinds), hsingle⟩, contents_put_explicit rfl h⟩

theorem allExplicit_atom (h : ∀ c ∈ fs, c.PutsExplicit) :
    (node "TeXAtom" fs [] texClass).AllExplicit :=
  allExplicit_iff.2 ⟨⟨rfl, fun htoken => absurd (of_decide_eq_true htoken)
    (by decide : Value.text "TeXAtom" ∉ tokenKinds),
    (by decide : Fragment.areSingle "mrow" ["data-texclass"] = true)⟩, contents_put_explicit rfl h⟩

theorem putsExplicit_inferredRow (h : ∀ c ∈ fs, c.PutsExplicit) :
    (inferredRow fs).PutsExplicit := contents_put_explicit rfl h

theorem allExplicit_fenced (stretchy : Bool) (opener closer : String) (h : f.PutsExplicit) :
    (fenced stretchy (.text opener) f (.text closer)).AllExplicit := by
  have hfence (fence : String) (side : TexClass) :
      (token "mo" (.text fence) (Formula.fence stretchy) (some side)).PutsExplicit := by
    refine (allExplicit_token (by decide) ?_).puts
    exact (by decide : Fragment.areSingle "mo" ["fence", "stretchy", "symmetric"] = true)
  have hsingle : Fragment.areSingle "mrow" ["open", "close"] = true := by decide
  refine allExplicit_row (fun c hc => ?_) hsingle
  simp only [List.mem_cons, List.not_mem_nil, or_false] at hc
  rcases hc with rfl | rfl | rfl
  · exact hfence opener .opening
  · exact h
  · exact hfence closer .closing

end Formula

/-! ### Reading -/

/-- Every node in the item puts explicit nodes into another, and every fence that it names is a
text. -/
structure Frame.IsExplicit (frame : Frame) : Prop where
  nodes : ∀ f, some f ∈ frame.nodes → f.PutsExplicit
  delim : frame.kind.rule = some .fence ∨ frame.isKind "right" = true →
    ∃ s, frame.get "delim" .absent = .text s
  /-- Only a frame that takes over the right fence stands between fences. -/
  fence : frame.kind.build = some .fence → frame.kind.rule = some .fence
  braket : frame.kind.build = some .braket →
    (∃ s, frame.get "open" .absent = .text s) ∧ ∃ s, frame.get "close" .absent = .text s

namespace Frame

open Formula

variable {kinds : FrameKinds} {frame item : Frame} {f : Formula}

theorem IsExplicit.rows (h : frame.IsExplicit) (hf : frame.Rows f) : f.PutsExplicit := by
  cases hf with
  | only hf => exact h.nodes f hf
  | row hfs => exact putsExplicit_inferredRow fun c hc => h.nodes c (hfs c hc)

/-- What a frame becomes puts explicit nodes into another, if its fences are there. -/
theorem IsExplicit.builds (h : frame.IsExplicit)
    (hclose : frame.kind.build = some .fence → ∃ s, frame.get "close" .absent = .text s)
    (hf : frame.Builds f) : f.PutsExplicit := by
  have hrows {row : Formula} (hrow : frame.Rows row) : ∀ c ∈ [row], c.PutsExplicit :=
    fun c hc => List.mem_singleton.1 hc ▸ h.rows hrow
  cases hf with
  | plain hf => exact h.rows hf
  | atom hrow => exact (allExplicit_atom (hrows hrow)).puts
  | environment hrow =>
    refine (allExplicit_row (hrows hrow) ?_).puts
    exact (by decide : Fragment.areSingle "mrow" ["data-environment"] = true)
  | fence hbuild hrow =>
    obtain ⟨opener, hopener⟩ := h.delim (.inl (h.fence hbuild))
    obtain ⟨closer, hcloser⟩ := hclose hbuild
    rw [hopener, hcloser]
    exact (allExplicit_fenced true opener closer (h.rows hrow)).puts
  | braket stretchy hbuild hrow =>
    obtain ⟨⟨opener, hopener⟩, closer, hcloser⟩ := h.braket hbuild
    rw [hopener, hcloser]
    exact (allExplicit_fenced stretchy opener closer (h.rows hrow)).puts

theorem isExplicit_of_wrap (hk : kinds.IsUsual) {built : Option Formula}
    (h : kinds.wrap built = .ok item) (hf : ∀ f, built = some f → f.PutsExplicit) :
    item.IsExplicit := by
  rw [wrap_eq hk] at h
  cases h
  refine ⟨fun f hmem => hf f (List.mem_singleton.1 hmem).symm, ?_, ?_, ?_⟩
  · rintro (hrule | hright)
    · cases hrule
    · cases hright
  · intro hbuild
    cases hbuild
  · intro hbuild
    cases hbuild

theorem IsExplicit.take (h : frame.IsExplicit) (hi : item.IsExplicit) :
    (frame.take item).IsExplicit := by
  refine ⟨fun f hf => ?_, h.delim, h.fence, h.braket⟩
  rcases List.mem_append.1 hf with hf | hf
  · exact h.nodes f hf
  · have hfirst : item.nodes.head?.join = some f := (List.mem_singleton.1 hf).symm
    exact hi.nodes f (List.mem_of_mem_head? (Option.join_eq_some_iff.1 hfirst))

theorem IsExplicit.recount (h : frame.IsExplicit) (n : Int) :
    (frame.set "barcount" (.integer n)).IsExplicit := by
  have hget {name : String} (hname : name ≠ "barcount") :
      (frame.set "barcount" (.integer n)).get name .absent = frame.get name .absent := by
    rw [get, get, Frame.set, Fields.get?_set_of_ne _ _ hname]
  refine ⟨h.nodes, ?_, h.fence, ?_⟩
  · rw [hget (by decide)]
    exact h.delim
  · rw [hget (by decide), hget (by decide)]
    exact h.braket

theorem IsExplicit.close (h : frame.IsExplicit) {s : String} :
    (frame.set "close" (.text s)).IsExplicit := by
  have hget {name : String} (hname : name ≠ "close") :
      (frame.set "close" (.text s)).get name .absent = frame.get name .absent := by
    rw [get, get, Frame.set, Fields.get?_set_of_ne _ _ hname]
  refine ⟨h.nodes, ?_, h.fence, fun hbuild => ⟨?_, s, ?_⟩⟩
  · rw [hget (by decide)]
    exact h.delim
  · rw [hget (by decide)]
    exact (h.braket hbuild).1
  · rw [get, Frame.set, Fields.get?_set_self]
    rfl

theorem IsExplicit.finish (hk : kinds.IsUsual) (h : frame.IsExplicit)
    (hclose : frame.kind.build = some .fence → ∃ s, frame.get "close" .absent = .text s)
    (result : Frame) (hr : frame.finish kinds = .ok (.close result)) : result.IsExplicit := by
  obtain ⟨built, result', heq, hwrap, hbuilt⟩ := finish_eq_ok hr
  cases heq
  exact isExplicit_of_wrap hk hwrap fun f hf => h.builds hclose (hbuilt f hf)

/-- A frame and what it becomes stay explicit. -/
theorem IsExplicit.check (hk : kinds.IsUsual) (h : frame.IsExplicit) (hi : item.IsExplicit) :
    (frame.check kinds item).1.IsExplicit ∧
      ∀ result, (frame.check kinds item).2 = .ok (.close result) → result.IsExplicit := by
  have hdecides := check_decides kinds frame item
  generalize frame.check kinds item = outcome at hdecides
  cases hdecides with
  | rejects => exact ⟨h, fun _ hr => by cases hr⟩
  | keeps => exact ⟨h, fun _ hr => by cases hr⟩
  | takes => exact ⟨h.take hi, fun _ hr => by cases hr⟩
  | finishes hrule => exact ⟨h, h.finish hk fun hbuild => absurd (h.fence hbuild) hrule⟩
  | closes hright =>
    obtain ⟨s, hs⟩ := hi.delim (.inr hright)
    rw [hs]
    refine ⟨h.close, h.close.finish hk fun _ => ⟨s, ?_⟩⟩
    rw [get, Frame.set, Fields.get?_set_self]
    rfl

theorem isExplicit_of_create (hk : kinds.IsUsual) {kind : String}
    (hkind : kind ∈ ["start", "stop", "open", "close", "begin", "end"]) {properties : Fields Value}
    (h : kinds.create kind properties = .ok item) (offset : Option Int) :
    IsExplicit { item with offset } := by
  simp only [List.mem_cons, List.not_mem_nil, or_false] at hkind
  rcases hk with rfl | rfl <;> rcases hkind with rfl | rfl | rfl | rfl | rfl | rfl <;>
    (cases h; exact ⟨nofun, (Or.elim · nofun nofun), nofun, nofun⟩)

end Frame

/-- The characters and the fences that the meaning brings in are texts, and its nodes identifiers.
-/
def Action.isWorded : Action → Bool
  | .mathChar char kind => char.text?.isSome && kind = none
  | .mathOp char _ => char.text?.isSome
  | .braket opener closer _ _ => opener.text?.isSome && closer.text?.isSome
  | _ => true

theorem Value.exists_text {value : Value} (h : value.text?.isSome = true) :
    ∃ s, value = .text s := by
  cases value with
  | text s => exact ⟨s, rfl⟩
  | _ => cases h

namespace Action

variable {t : Token} {action : Action}

theorem Makes.allExplicit {f : Formula} (h : action.Makes t f) (ha : action.isWorded = true) :
    f.AllExplicit := by
  have hstretchy {value : Value} : Fragment.areSingle "mo"
      (([("stretchy", value)] : Fields Value).map Prod.fst) = true := by
    exact (by decide : Fragment.areSingle "mo" ["stretchy"] = true)
  cases h with
  | identifier | number => exact Formula.allExplicit_token (by decide) (by decide)
  | other stretchy h =>
    rcases h with rfl | rfl
    · exact Formula.allExplicit_token (by decide) (by decide)
    · exact Formula.allExplicit_token (by decide) hstretchy
  | mathChar char kind =>
    obtain ⟨hchar, hkind⟩ := Bool.and_eq_true_iff.1 ha
    obtain ⟨s, rfl⟩ := Value.exists_text hchar
    obtain rfl : kind = none := of_decide_eq_true hkind
    exact Formula.allExplicit_token (by decide) (by decide)
  | mathOp char style texClass stretchy h =>
    obtain ⟨s, rfl⟩ := Value.exists_text ha
    rcases h with rfl | ⟨value, rfl⟩
    · exact Formula.allExplicit_token (by decide) (by decide)
    · exact Formula.allExplicit_token (by decide) hstretchy
  | space width =>
    refine Formula.allExplicit_token (by decide) ?_
    exact (by decide : Fragment.areSingle "mspace" ["width"] = true)
  | linebreak => exact Formula.allExplicit_token (by decide) (by decide)
  | plainBar spelling => exact Formula.allExplicit_token (by decide) hstretchy
  | separator spelling stretchy =>
    refine Formula.allExplicit_token (by decide) ?_
    exact (by decide : Fragment.areSingle "mo" ["stretchy", "braketbar"] = true)
  | atom side => exact Formula.allExplicit_atom fun c hc => absurd hc List.not_mem_nil

theorem Pushes.isExplicit {kinds : FrameKinds} (hk : kinds.IsUsual) {kind : String}
    {properties : Fields Value} {item : Frame} (h : action.Pushes t kind properties)
    (ha : action.isWorded = true) (hitem : kinds.create kind properties = .ok item)
    (offset : Option Int) : Frame.IsExplicit { item with offset } := by
  have hnone {f : Formula} : some f ∉ ([] : List (Option Formula)) := List.not_mem_nil
  cases h with
  | openGroup | closeGroup | begin | finish =>
    exact Frame.isExplicit_of_create hk (by decide) hitem offset
  | left fence =>
    rcases hk with rfl | rfl <;>
      (cases hitem; exact ⟨fun f hf => absurd hf hnone, fun _ => ⟨fence, rfl⟩, fun _ => rfl, nofun⟩)
  | right fence =>
    rcases hk with rfl | rfl <;>
      (cases hitem; exact ⟨fun f hf => absurd hf hnone, fun _ => ⟨fence, rfl⟩, nofun, nofun⟩)
  | braket opener closer stretchy limit =>
    obtain ⟨hopener, hcloser⟩ := Bool.and_eq_true_iff.1 ha
    obtain ⟨left, rfl⟩ := Value.exists_text hopener
    obtain ⟨right, rfl⟩ := Value.exists_text hcloser
    rcases hk with rfl | rfl
    · cases hitem
    · cases hitem
      refine ⟨fun f hf => absurd hf hnone, ?_, nofun, fun _ => ⟨⟨left, rfl⟩, right, rfl⟩⟩
      rintro (hrule | hright)
      · cases hrule
      · cases hright

end Action

namespace Dialect

variable {d : Dialect}

/-- Every meaning in the dialect is worded. -/
def IsWorded (d : Dialect) : Prop :=
  ∀ lexicon ∈ d.vocabulary, ∀ entry ∈ lexicon.entries, entry.2.isWorded = true

theorem IsWorded.meaning (hv : d.IsWorded) {t : Token} {action : Action}
    (h : Reader.meaning d.vocabulary t = .ok action) : action.isWorded = true :=
  Reader.meaning_keeps (P := fun action => action.isWorded = true) hv (by decide) h

theorem keeps_isExplicit (hk : d.kinds.IsUsual) (hv : d.IsWorded) : d.Keeps Frame.IsExplicit where
  check _ _ h hi := h.check hk hi
  recount _ n h := h.recount n
  made t action f item hmeaning hf hitem := by
    refine Frame.isExplicit_of_wrap hk hitem fun g hg => ?_
    exact Option.some.inj hg ▸ (hf.allExplicit (hv.meaning hmeaning)).puts
  pushed t action kind properties item offset hmeaning hpushes hitem :=
    hpushes.isExplicit hk (hv.meaning hmeaning) hitem offset
  ends kind item offset hkind hitem := by
    refine Frame.isExplicit_of_create hk ?_ hitem offset
    rcases hkind with rfl | rfl <;> decide

theorem isWorded_of_packages {names : List String} (hnames : ofPackages names = .ok d)
    {lexicons : List Lexicon} (hl : ∀ lexicon ∈ lexicons, lexicon.IsOfTemplates) :
    (d.addLexicons lexicons).IsWorded := by
  have hknown : ∀ lexicon ∈ known, ∀ entry ∈ lexicon.entries, entry.2.isWorded = true := by decide
  refine forall_of_packages (P := fun action => action.isWorded = true) hknown hnames
    fun lexicon hlexicon entry hentry => ?_
  obtain ⟨text, arity, htemplate⟩ := hl lexicon hlexicon entry hentry
  rw [htemplate]
  rfl

end Dialect

/-- A formula that is read from a text puts explicit nodes into another. -/
theorem readTex_putsExplicit {d : Dialect} (hk : d.kinds.IsUsual) (hv : d.IsWorded) {limit : Int}
    {text : String} {f : Formula} (hf : readTex d limit text = .ok (some f)) : f.PutsExplicit := by
  obtain ⟨item, hitem, hmem⟩ := readTex_keeps (Dialect.keeps_isExplicit hk hv) hf
  exact hitem.nodes f hmem

namespace Source

open Formula

variable {delims : Delimiters} {d : Dialect} {limit : Int} {doc : Document} {display display' : Bool}
  {text : String} {f : Formula}

theorem exists_row_of_read
    (h : read { format := .tex delims d limit } display (.text text) = .ok f) :
    ∃ row, readTex d limit text = .ok (some row) ∧
      f = .node "math" [row] (if display then [("display", .text "block")] else []) none := by
  change (readTex d limit text >>= _) = _ at h
  rcases hrow : readTex d limit text with failure | _ | row
  · rw [hrow] at h
    cases h
  · rw [hrow] at h
    cases h
  · rw [hrow] at h
    cases h
    exact ⟨row, rfl, rfl⟩

theorem allExplicit_math {row : Formula} (h : row.PutsExplicit) (display : Bool) :
    AllExplicit (.node "math" [row] (if display then [("display", .text "block")] else []) none) := by
  have hsingle : Fragment.areSingle "math" ((if display then [("display", .text "block")] else [] :
      Fields Value).map Prod.fst) = true := by
    cases display <;> decide
  have htoken : Value.text "math" ∉ tokenKinds := by decide
  refine allExplicit_iff.2 ⟨⟨rfl, fun h => absurd (of_decide_eq_true h) htoken, hsingle⟩, ?_⟩
  exact contents_put_explicit rfl fun c hc => List.mem_singleton.1 hc ▸ h

/-- A formula that is compiled from a text with some packages and templates, and with no filters,
has no inferred row in it, and the content that shows it is its markup, written out. -/
theorem compile_markup {names : List String} (hnames : Dialect.ofPackages names = .ok d)
    {lexicons : List Lexicon} (hl : ∀ lexicon ∈ lexicons, lexicon.IsOfTemplates)
    (h : compile { format := .tex delims (d.addLexicons lexicons) limit } doc display (.text text) =
      (display', .ok f)) :
    (∀ g ∈ f.parts, g.inferred = false) ∧ f.fragment.markup = f.markup := by
  have hkinds := (Dialect.isSound_of_packages hnames hl).kinds
  have hworded := Dialect.isWorded_of_packages hnames hl
  rw [compile_text, Prod.mk.injEq] at h
  obtain ⟨row, hrow, rfl⟩ := exists_row_of_read h.2
  have hmath := allExplicit_math (readTex_putsExplicit hkinds hworded hrow) display
  exact ⟨fun g hg => (hmath g hg).shown, fragment_markup _ hmath⟩

end Source

/-- A template that puts its argument between fences. -/
def Lexicon.bracketing : Lexicon where
  category := .command
  entries := [("pair", .template "\\left(#1\\right)" (some (.integer 1)))]

theorem Source.compile_markup_fenced :
    let d := Dialect.usual.addLexicons [.bracketing]
    Dialect.ofPackages ["braket"] = .ok .usual ∧
    (∀ lexicon ∈ [Lexicon.bracketing], lexicon.IsOfTemplates) ∧
    ∃ f, Source.compile { format := .tex {} d 1 } .empty true (.text "\\pair\x7b\x7bx\x7d<\x7d") =
        (true, .ok f) ∧
      f.markup = "<math display=\"block\"><mrow open=\"(\" close=\")\">" ++
        "<mo fence=\"true\" stretchy=\"true\" symmetric=\"true\">(</mo>" ++
        "<mrow data-texclass=\"ORD\"><mi>x</mi></mrow><mo>&lt;</mo>" ++
        "<mo fence=\"true\" stretchy=\"true\" symmetric=\"true\">)</mo></mrow></math>" ∧
      (∀ g ∈ f.parts, g.inferred = false) ∧ f.fragment.markup = f.markup := by
  intro d
  have hnames : Dialect.ofPackages ["braket"] = .ok _ := rfl
  have hl : ∀ lexicon ∈ [Lexicon.bracketing], lexicon.IsOfTemplates := by
    intro lexicon hlexicon entry hentry
    rw [List.mem_singleton.1 hlexicon] at hentry
    rw [List.mem_singleton.1 hentry]
    exact ⟨_, some 1, rfl⟩
  have htokens : tokenize "\\pair\x7b\x7bx\x7d<\x7d" = .ok [
      ⟨.controlWord, "\\pair", 0⟩, ⟨.openBrace, "\x7b", 5⟩, ⟨.openBrace, "\x7b", 6⟩,
      ⟨.letter, "x", 7⟩, ⟨.closeBrace, "\x7d", 8⟩, ⟨.other, "<", 9⟩, ⟨.closeBrace, "\x7d", 10⟩] := by
    decide +kernel
  have htemplate : tokenize "\\left(#1\\right)" = .ok [
      ⟨.controlWord, "\\left", 0⟩, ⟨.other, "(", 5⟩, ⟨.parameter, "#1", 6⟩,
      ⟨.controlWord, "\\right", 8⟩, ⟨.other, ")", 14⟩] := by
    decide +kernel
  let row : Formula := .fenced true "(" (.inferredRow [
    .node "TeXAtom" [.token "mi" "x" [] none] [] (some .ord), .token "mo" "<" [] (some .rel)]) ")"
  have hread : readTex d 1 "\\pair\x7b\x7bx\x7d<\x7d" = .ok (some row) := by
    rw [readTex, htokens]
    show (Reader.run d ⟨_, _ :: _, 0 + 1⟩ >>= _) = _
    rw [Reader.run_template rfl rfl rfl htemplate rfl]
    show (Reader.run d ⟨_, _, 0⟩ >>= _) = _
    rw [Reader.run_of_runFor (show Reader.runFor d 7 _ = some (.ok _) from rfl)]
    rfl
  have hcompile : Source.compile { format := .tex {} d 1 } .empty true
      (.text "\\pair\x7b\x7bx\x7d<\x7d") =
        (true, .ok (.node "math" [row] [("display", .text "block")] none)) := by
    rw [Source.compile_text]
    show (true, readTex d 1 _ >>= _) = _
    rw [hread]
    rfl
  exact ⟨rfl, hl, _, hcompile, by decide +kernel, Source.compile_markup hnames hl hcompile⟩

end Formulary
