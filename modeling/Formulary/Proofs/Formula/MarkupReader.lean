import Mathlib.Data.List.DropRight
import Formulary.Proofs.Formula.Markup

/-! # What is shown can be read again

A formula that is shown in a document and read from there again is almost the same
(`Formula.asRead`): an atom has become a row, only the attributes that a reading keeps are left, in
the order of their list and with their texts as values, and only tokens have a text, without the
blanks around it.  So what was read from a document comes back as it is, and a typeset form that is
read and typeset again does not change (`Formula.reads_shown`). -/

namespace Formulary

/-! ### Blanks -/

namespace Text

theorem strip_eq (s : String) :
    strip s = String.ofList ((s.toList.dropWhile isBlank).rdropWhile isBlank) := rfl

theorem dropWhile_rdropWhile {α : Type} (p : α → Bool) (l : List α) :
    ((l.dropWhile p).rdropWhile p).dropWhile p = (l.dropWhile p).rdropWhile p := by
  rw [List.dropWhile_eq_self_iff]
  intro hlength
  -- what comes first was first before the end was cut off too
  have hleft := List.rdropWhile_prefix p (l := l.dropWhile p)
  rw [hleft.getElem hlength]
  exact List.dropWhile_get_zero_not p l (Nat.lt_of_lt_of_le hlength hleft.length_le)

theorem strip_strip (s : String) : strip (strip s) = strip s := by
  rw [strip_eq (strip s), strip_eq, String.toList_ofList, dropWhile_rdropWhile,
    List.rdropWhile_idempotent]

end Text

/-! ### Attributes -/

namespace Fields

variable {α β : Type}

theorem get?_map (f : String → α → β) (fields : Fields α) (name : String) :
    get? (fields.map fun pair => (pair.1, f pair.1 pair.2)) name =
      (fields.get? name).map (f name) := by
  induction fields with
  | nil => rfl
  | cons pair rest ih =>
    obtain ⟨other, content⟩ := pair
    rw [List.map_cons, get?, get?, ih]
    split
    · rename_i heq
      rw [heq]
      rfl
    · rfl

theorem get?_filterMap (f : String → Option α) (names : List String) (name : String) :
    get? (names.filterMap fun name => (f name).map (name, ·)) name =
      if name ∈ names then f name else none := by
  induction names with
  | nil => rfl
  | cons first rest ih =>
    by_cases hfirst : first = name
    · subst hfirst
      cases hcontent : f first with
      | none => simp [hcontent, ih]
      | some content => simp [hcontent, get?]
    · cases hcontent : f first with
      | none => simp [hcontent, ih, Ne.symm hfirst]
      | some content => simp [hcontent, get?, ih, hfirst, Ne.symm hfirst]

theorem names_set (fields : Fields α) (name : String) (content : α) :
    (fields.set name content).map Prod.fst =
      if name ∈ fields.map Prod.fst then fields.map Prod.fst
      else fields.map Prod.fst ++ [name] := by
  induction fields with
  | nil => rfl
  | cons pair rest ih =>
    obtain ⟨other, old⟩ := pair
    by_cases hother : other = name
    · simp [set, hother]
    · simp only [set, if_neg hother, List.map_cons, ih, List.mem_cons, Ne.symm hother, false_or]
      split <;> rfl

theorem nodup_set {fields : Fields α} (h : (fields.map Prod.fst).Nodup) (name : String)
    (content : α) : ((fields.set name content).map Prod.fst).Nodup := by
  rw [names_set]
  split
  · exact h
  · rename_i hnew
    exact List.concat_eq_append ▸ h.concat hnew

end Fields

theorem Fragment.attribute?_build {tag name : String} {pairs : List (String × String)}
    (hpairs : (pairs.map Prod.fst).Nodup) (hname : name ∉ wordLists (Text.lowercase tag))
    (children : List Fragment) :
    (build tag pairs children).attribute? name = Fields.get? pairs name := by
  let spaced (name value : String) : String :=
    if name ∈ wordLists (Text.lowercase tag) then " ".intercalate (Text.words value) else value
  let values : Fields String := pairs.map fun pair => (pair.1, spaced pair.1 pair.2)
  have hbuild : (build tag pairs children).attribute? name =
      ((Attribute.ofValues tag values).get? name).map Attribute.value := by
    rw [build, Fields.ofPairs_eq hpairs]
    rfl
  have hwritten := Fields.get?_map (fun _ => Attribute.value) (Attribute.ofValues tag values) name
  rw [hbuild, ← hwritten, Attribute.ofValues_values, Fields.get?_map spaced]
  cases Fields.get? pairs name with
  | none => rfl
  | some value => exact congrArg some (if_neg hname)

namespace Formula

/-! ### Formulas as they are read -/

/-- The attributes of the formula that a reading keeps, with the texts that show them. -/
def attributesRead (f : Formula) : Fields Value :=
  readAttributes.filterMap fun name =>
    (f.attributes.get? name).map fun value => (name, .text value.attributeText)

mutual

/-- The formula as it is read from the content that shows it: an atom is a row there, of the
attributes only those stay that are read, of the texts those of tokens, without the blanks around
them, and of the classes none. -/
def asRead : Formula → Formula
  | ⟨kind, children, attributes, text, texClass, inferred⟩ =>
    let f : Formula := ⟨kind, children, attributes, text, texClass, inferred⟩
    { kind := f.shownKind, children := asReadAll children, attributes := f.attributesRead
      text := if f.isToken then .text (Text.strip text.plain) else "", texClass := none, inferred }

/-- The same for the formulas of a list. -/
def asReadAll : List Formula → List Formula
  | [] => []
  | f :: rest => f.asRead :: asReadAll rest

end

/-- The node is one that readers of mathematics make: no inferred row, of a kind that is a name,
under each attribute once, and with a text and no children if it is a token. -/
structure IsRegular (f : Formula) : Prop where
  shown : f.inferred = false
  named : ∃ name, f.kind = .text name
  single : (f.attributes.map Prod.fst).Nodup
  spelled : f.isToken = true → ∃ s, f.text = .text s
  childless : f.isToken = true → f.children = []

/-- Whether a node of this kind is left out among the children of another one when it is read. -/
def isPassedOver (f : Formula) : Bool := f.kind.plain.toList.head? = some '#'

theorem asRead_eq (f : Formula) : f.asRead =
    { kind := f.shownKind, children := f.children.map asRead, attributes := f.attributesRead
      text := if f.isToken then .text (Text.strip f.text.plain) else "", texClass := none
      inferred := f.inferred } := by
  have hall : ∀ fs : List Formula, asReadAll fs = fs.map asRead := fun fs => by
    induction fs with
    | nil => rfl
    | cons f rest ih => rw [asReadAll, ih, List.map_cons]
  obtain ⟨kind, children, attributes, text, texClass, inferred⟩ := f
  rw [asRead, hall]

variable {f : Formula} {α : Type}

theorem node_eq {kind : Value} {fs : List Formula} {attributes : Fields Value}
    {texClass : Option TexClass} (h : ∀ f ∈ fs, f.inferred = false) :
    node kind fs attributes texClass = { kind, children := fs, attributes, texClass } := by
  have hcontents : fs.flatMap contents = fs := by
    rw [List.flatMap_congr fun f hf => ?_, List.flatMap_singleton']
    rw [contents, h f hf, Bool.and_false, if_neg Bool.false_ne_true]
  rw [node, put, hcontents]
  rfl

theorem not_mem_wordLists {name : String} (h : name ∈ readAttributes) (tag : String) :
    name ∉ Fragment.wordLists tag := by
  have hwords : ∀ word ∈ Fragment.wordLists tag, word ∉ readAttributes := by
    rw [Fragment.wordLists]
    split_ifs <;> decide
  exact fun hmem => hwords name hmem h

theorem get?_shownAttributes {name : String} (h : name ∈ readAttributes) :
    f.shownAttributes.get? name = f.attributes.get? name := by
  rw [shownAttributes]
  split
  · refine Fields.get?_set_of_ne _ _ ?_
    rintro rfl
    exact absurd h (by decide)
  · rfl

theorem attributesOf_fragment (h : (f.attributes.map Prod.fst).Nodup) :
    attributesOf f.fragment = f.attributesRead := by
  have hshown : (f.contentAttributes.map Prod.fst).Nodup := by
    rw [contentAttributes, List.map_map, shownAttributes]
    split
    · exact Fields.nodup_set h _ _
    · exact h
  refine List.filterMap_congr fun name hname => ?_
  have hget : Fields.get? f.contentAttributes name =
      (f.shownAttributes.get? name).map Value.attributeText :=
    Fields.get?_map (fun _ => Value.attributeText) f.shownAttributes name
  rw [fragment_eq, Fragment.attribute?_build hshown (not_mem_wordLists hname _), hget,
    get?_shownAttributes hname, Option.map_map]
  rfl

/-! ### Reading what is shown -/

theorem IsRegular.isToken_shown (h : f.IsRegular) :
    .text f.shownKind.plain ∈ tokenKinds ↔ f.isToken = true := by
  obtain ⟨name, hname⟩ := h.named
  rw [isToken, decide_eq_true_eq, shownKind, hname]
  split
  · rename_i hatom
    rw [hatom]
    decide
  · rfl

theorem IsRegular.shownKind_eq (h : f.IsRegular) : .text f.shownKind.plain = f.shownKind := by
  obtain ⟨name, hname⟩ := h.named
  rw [shownKind, hname]
  split <;> rfl

theorem inferred_ofContent (t : Tree α) : (ofContent t).inferred = false := by
  cases t with
  | string => rfl
  | element label tag attributes children =>
    rw [ofContent]
    split <;> rfl

theorem ofContent_of_token {t : Tree α} (h : .text t.kind ∈ tokenKinds) : ofContent t =
    .token (.text t.kind) (.text (Text.strip t.textContent)) (attributesOf t) none := by
  cases t with
  | string label kind value =>
    have hkind : Value.text kind.name ∉ tokenKinds := by cases kind <;> decide
    exact absurd h hkind
  | element label tag attributes children => exact if_pos h

/-- Any other tree is read with the children that are not left out. -/
theorem ofContent_of_not_token {t : Tree α} (h : .text t.kind ∉ tokenKinds) : ofContent t =
    { kind := .text t.kind, children := (t.children.filter fun c => !isSkipped c).map ofContent
      attributes := attributesOf t } := by
  cases t with
  | string => rfl
  | element label tag attributes children =>
    rw [ofContent, ofContentAll_eq, if_neg (show Value.text tag ∉ tokenKinds from h)]
    refine node_eq fun c hc => ?_
    obtain ⟨s, -, rfl⟩ := List.mem_map.1 hc
    exact inferred_ofContent s

@[simp] theorem kind_ofContent (t : Tree α) : (ofContent t).kind = .text t.kind := by
  by_cases h : .text t.kind ∈ tokenKinds
  · rw [ofContent_of_token h]
    rfl
  · rw [ofContent_of_not_token h]

@[simp] theorem attributes_ofContent (t : Tree α) : (ofContent t).attributes = attributesOf t := by
  by_cases h : .text t.kind ∈ tokenKinds
  · rw [ofContent_of_token h]
    rfl
  · rw [ofContent_of_not_token h]

theorem isToken_ofContent (t : Tree α) :
    (ofContent t).isToken = true ↔ .text t.kind ∈ tokenKinds := by
  rw [isToken, decide_eq_true_eq, kind_ofContent]

theorem textContent_of_token {t : Tree α} (h : .text t.kind ∈ tokenKinds) :
    t.textContent = Tree.textContentAll t.children := by
  have hkind : ∀ kind ∈ tokenKinds, kind ≠ .text StringKind.text.name := by decide
  have htext : t.isText = false := decide_eq_false fun heq => hkind _ h (congrArg _ heq)
  cases t with
  | string label kind value =>
    rw [Tree.textContent, if_neg (Bool.not_eq_true _ ▸ htext)]
    rfl
  | element label tag attributes children =>
    rw [Tree.textContent, if_neg (Bool.not_eq_true _ ▸ htext)]
    rfl

theorem kind_fragment (f : Formula) : f.fragment.kind = f.shownKind.plain := by
  rw [fragment_eq]
  rfl

theorem children_fragment (f : Formula) : f.fragment.children = f.shownContent := by
  rw [fragment_eq]
  rfl

theorem textContentAll_shownContent {s : String} (htoken : f.isToken = true)
    (htext : f.text = .text s) : Tree.textContentAll f.shownContent = s := by
  rw [shownContent, if_pos htoken, htext]
  by_cases hs : s = ""
  · subst hs
    rfl
  · rw [if_pos (show (Value.text s).holds = true from decide_eq_true hs)]
    exact String.append_empty

theorem IsRegular.isSkipped_fragment (h : f.IsRegular) :
    isSkipped f.fragment = f.isPassedOver := by
  obtain ⟨name, hname⟩ := h.named
  rw [isSkipped, isPassedOver, kind_fragment, shownKind, hname]
  split
  · rename_i hatom
    rw [hatom]
    decide
  · rfl

/-- What is read of a formula that is shown, if no node below its top is passed over. -/
theorem ofContent_fragment (f : Formula) (h : ∀ g ∈ f.parts, g.IsRegular)
    (hbelow : ∀ g ∈ partsAll f.children, g.isPassedOver = false) :
    ofContent f.fragment = f.asRead := by
  induction f using induct with
  | step f ih =>
    obtain ⟨hf, hchildren⟩ := forall_parts_iff.1 h
    have hkind := hf.isToken_shown
    rw [← kind_fragment] at hkind
    rw [asRead_eq, ← attributesOf_fragment hf.single, ← hf.shownKind_eq, ← kind_fragment, hf.shown]
    by_cases htoken : f.isToken = true
    · obtain ⟨s, hs⟩ := hf.spelled htoken
      rw [ofContent_of_token (hkind.2 htoken), textContent_of_token (hkind.2 htoken),
        children_fragment, textContentAll_shownContent htoken hs, if_pos htoken, hs,
        hf.childless htoken]
      rfl
    · have hchild : ∀ c ∈ f.children, isSkipped c.fragment = false ∧
          ofContent c.fragment = c.asRead := fun c hc => by
        have hnamed : ∀ g ∈ c.parts, g.isPassedOver = false := fun g hg =>
          hbelow g (mem_partsAll.2 ⟨c, hc, hg⟩)
        rw [parts_eq, List.forall_mem_cons] at hnamed
        have hself := (forall_parts_iff.1 (hchildren c hc)).1
        exact ⟨hself.isSkipped_fragment.trans hnamed.1, ih c hc (hchildren c hc) hnamed.2⟩
      have hkept : ∀ t ∈ f.children.map fragment, (!isSkipped t) = true :=
        List.forall_mem_map.2 fun c hc => by rw [(hchild c hc).1]; rfl
      have hread : (f.children.map fragment).map ofContent = f.children.map asRead := by
        rw [List.map_map]
        exact List.map_congr_left fun c hc => (hchild c hc).2
      rw [ofContent_of_not_token (mt hkind.1 htoken), children_fragment, shownContent,
        if_neg htoken, if_neg htoken, fragmentAll_eq, List.filter_eq_self.2 hkept, hread]

/-! ### Formulas from content -/

theorem get?_attributesOf (t : Tree α) {name : String} (h : name ∈ readAttributes) :
    (attributesOf t).get? name = (t.attribute? name).map .text := by
  have hget := Fields.get?_filterMap (fun name => (t.attribute? name).map Value.text)
    readAttributes name
  rw [if_pos h] at hget
  rw [← hget, attributesOf]
  congr 1
  refine List.filterMap_congr fun name _ => ?_
  rw [Option.map_map]
  rfl

/-- The attributes of a formula from content are read as they are. -/
theorem attributesRead_ofContent (t : Tree α) : (ofContent t).attributesRead = attributesOf t := by
  refine List.filterMap_congr fun name hname => ?_
  rw [attributes_ofContent, get?_attributesOf t hname, Option.map_map]
  rfl

theorem nodup_attributesOf (t : Tree α) : ((attributesOf t).map Prod.fst).Nodup := by
  have hnames : (attributesOf t).map Prod.fst =
      readAttributes.filter fun name => (t.attribute? name).isSome := by
    rw [attributesOf]
    induction readAttributes with
    | nil => rfl
    | cons name rest ih =>
      cases hvalue : t.attribute? name <;> simp [hvalue, ih]
  rw [hnames]
  exact List.Nodup.filter _ (by decide)

theorem isRegular_ofContent (t : Tree α) : (ofContent t).IsRegular where
  shown := inferred_ofContent t
  named := ⟨t.kind, kind_ofContent t⟩
  single := by
    rw [attributes_ofContent]
    exact nodup_attributesOf t
  spelled := fun htoken =>
    ⟨_, congrArg Formula.text (ofContent_of_token ((isToken_ofContent t).1 htoken))⟩
  childless := fun htoken =>
    congrArg Formula.children (ofContent_of_token ((isToken_ofContent t).1 htoken))

/-- Every child of a formula from content comes from a child that was not left out. -/
theorem exists_of_mem_children {t : Tree α} {c : Formula} (h : c ∈ (ofContent t).children) :
    ∃ s ∈ t.children, isSkipped s = false ∧ ofContent s = c := by
  by_cases htoken : .text t.kind ∈ tokenKinds
  · rw [ofContent_of_token htoken] at h
    cases h
  · rw [ofContent_of_not_token htoken] at h
    obtain ⟨s, hs, rfl⟩ := List.mem_map.1 h
    obtain ⟨hmem, hkept⟩ := List.mem_filter.1 hs
    exact ⟨s, hmem, Bool.not_eq_true' _ ▸ hkept, rfl⟩

theorem exists_of_mem_below {t : Tree α} {g : Formula} (h : g ∈ partsAll (ofContent t).children) :
    ∃ s : Tree α, isSkipped s = false ∧ ofContent s = g := by
  induction t using Tree.induct with
  | step t ih =>
    obtain ⟨c, hc, hg⟩ := mem_partsAll.1 h
    obtain ⟨s, hs, hkept, rfl⟩ := exists_of_mem_children hc
    rw [parts_eq] at hg
    rcases List.mem_cons.1 hg with rfl | hg
    · exact ⟨s, hkept, rfl⟩
    · exact ih s hs hg

/-- A formula from content is read as it is, if no element there has the name of an atom. -/
theorem asRead_ofContent (t : Tree α) (h : ∀ s ∈ t.subtrees, s.kind ≠ "TeXAtom") :
    (ofContent t).asRead = ofContent t := by
  induction t using Tree.induct with
  | step t ih =>
    have hkind : (ofContent t).shownKind = .text t.kind := by
      rw [shownKind, kind_ofContent]
      exact if_neg fun heq => h t (Tree.self_mem_subtrees t) (Value.text.inj heq)
    have hchildren : (ofContent t).children.map asRead = (ofContent t).children := by
      refine (List.map_congr_left fun c hc => ?_).trans (List.map_id _)
      obtain ⟨s, hs, -, rfl⟩ := exists_of_mem_children hc
      exact ih s hs fun u hu => h u (Tree.mem_subtrees_of_child hs hu)
    rw [asRead_eq, hkind, hchildren, attributesRead_ofContent, inferred_ofContent]
    by_cases htoken : .text t.kind ∈ tokenKinds
    · rw [if_pos ((isToken_ofContent t).2 htoken), ofContent_of_token htoken]
      show (⟨_, _, _, .text (Text.strip (Text.strip t.textContent)), _, _⟩ : Formula) = _
      rw [Text.strip_strip]
      rfl
    · rw [if_neg (mt (isToken_ofContent t).1 htoken), ofContent_of_not_token htoken]

theorem ofContent_congr {t u : Tree α} (hkind : t.kind = u.kind)
    (hattributes : attributesOf t = attributesOf u) (hchildren : t.children = u.children) :
    ofContent t = ofContent u := by
  by_cases h : .text t.kind ∈ tokenKinds
  · have h' : .text u.kind ∈ tokenKinds := hkind ▸ h
    rw [ofContent_of_token h, ofContent_of_token h', textContent_of_token h,
      textContent_of_token h', hkind, hattributes, hchildren]
  · have h' : .text u.kind ∉ tokenKinds := hkind ▸ h
    rw [ofContent_of_not_token h, ofContent_of_not_token h', hkind, hattributes, hchildren]

theorem ofContent_typesetForm (source : Source) (f : Formula) :
    ofContent (Item.typesetForm source f) = ofContent f.fragment := by
  rw [Item.typesetForm]
  cases f.fragment with
  | string => rfl
  | element label tag attributes children =>
    refine ofContent_congr rfl (List.filterMap_congr fun name hname => ?_) rfl
    have hne : name ≠ typesetMark := by
      rintro rfl
      exact absurd hname (by decide)
    rw [Item.marked, Tree.attribute?, Fields.get?_set_of_ne _ _ hne]
    rfl

/-- A formula that is shown is read as `Formula.asRead` says.  So a formula that was read, where no
element has the name of an atom, is shown and read without a change, and what typesets it does not
change when it is typeset again. -/
theorem reads_shown :
    (∀ f : Formula, (∀ g ∈ f.parts, g.IsRegular) → (∀ g ∈ f.parts, g.isPassedOver = false) →
      ofContent f.fragment = f.asRead) ∧
    ∀ {α : Type} (t : Tree α), (∀ s ∈ t.subtrees, s.kind ≠ "TeXAtom") →
      ofContent (ofContent t).fragment = ofContent t ∧
      ∀ source, Item.typesetForm source (ofContent (Item.typesetForm source (ofContent t))) =
        Item.typesetForm source (ofContent t) := by
  refine ⟨fun f hregular hnamed => ?_, fun {α} t hatoms => ?_⟩
  · rw [parts_eq, List.forall_mem_cons] at hnamed
    exact ofContent_fragment f hregular hnamed.2
  · have hregular : ∀ g ∈ (ofContent t).parts, g.IsRegular := by
      rw [parts_eq, List.forall_mem_cons]
      refine ⟨isRegular_ofContent t, fun g hg => ?_⟩
      obtain ⟨s, -, rfl⟩ := exists_of_mem_below hg
      exact isRegular_ofContent s
    have hbelow : ∀ g ∈ partsAll (ofContent t).children, g.isPassedOver = false := fun g hg => by
      obtain ⟨s, hkept, rfl⟩ := exists_of_mem_below hg
      rwa [isPassedOver, kind_ofContent]
    have hread : ofContent (ofContent t).fragment = ofContent t :=
      (ofContent_fragment _ hregular hbelow).trans (asRead_ofContent t hatoms)
    exact ⟨hread, fun source => by rw [ofContent_typesetForm, hread]⟩

/-- An atom with attributes of which one is read, around a token with blanks in its text. -/
def spacedAtom : Formula where
  kind := "TeXAtom"
  children := [.token "mi" " x " [("class", "a  b"), ("mathvariant", "bold")] (some .rel)]
  attributes := [("id", "c"), ("stretchy", .truth true)]
  text := "left out"
  texClass := some .op

/-- An element with a text beside its children, and a comment in one of them. -/
def remarkedContent : Fragment :=
  .element () "math" [("id", "d"), ("display", "block")]
    [.string () .text "left out",
      .element () "mi" [] [.string () .text " y", .string () .comment "z"]]

theorem reads_shown_spacedAtom :
    ((∀ g ∈ spacedAtom.parts, g.IsRegular) ∧ ∀ g ∈ spacedAtom.parts, g.isPassedOver = false) ∧
    ofContent spacedAtom.fragment = { kind := "mrow", attributes := [("stretchy", "true")]
                                      children := [.token "mi" "x" [("mathvariant", "bold")] none] } ∧
    (∀ s ∈ remarkedContent.subtrees, s.kind ≠ "TeXAtom") ∧
    ofContent (ofContent remarkedContent).fragment = ofContent remarkedContent := by
  have hregular : ∀ g ∈ spacedAtom.parts, g.IsRegular := by
    intro g hg
    rw [spacedAtom] at hg
    simp only [parts, partsAll, token, List.append_nil, List.mem_cons, List.not_mem_nil, or_false]
      at hg
    rcases hg with rfl | rfl
    · exact ⟨rfl, ⟨_, rfl⟩, by decide, fun h => absurd h (by decide), fun h => absurd h (by decide)⟩
    · exact ⟨rfl, ⟨_, rfl⟩, by decide, fun _ => ⟨_, rfl⟩, fun _ => rfl⟩
  have hnamed : ∀ g ∈ spacedAtom.parts, g.isPassedOver = false := by decide
  have hatoms : ∀ s ∈ remarkedContent.subtrees, s.kind ≠ "TeXAtom" := by decide
  refine ⟨⟨hregular, hnamed⟩, ?_, hatoms, (reads_shown.2 remarkedContent hatoms).1⟩
  rw [reads_shown.1 spacedAtom hregular hnamed]
  rfl

end Formula

end Formulary
