import Formulary.Proofs.Formula.MarkupReader
import Formulary.Proofs.Tokens.Lexemes

/-! # Markup tells formulas apart

Markup is read in one way only: names end before the first character that is none of theirs, what is
between quotes and between tags is escaped, and behind `<` a slash says that an element ends.  So
whatever follows the markup of a formula, the content that shows the formula can be told from it
(`Formula.fragment_of_markup`), and formulas with the same markup are shown by the same content
(`Formula.fragment_eq_of_markup`). -/

namespace Formulary

/-! ### Characters and what stands for them -/

namespace Text

variable {p : Char → Bool} {a b x y : List Char} {c : Char}

theorem run_inj (ha : ∀ e ∈ a, p e = true) (hb : ∀ e ∈ b, p e = true) (hx : begins p x = false)
    (hy : begins p y = false) (h : a ++ x = b ++ y) : a = b ∧ x = y := by
  have hrun : a = b := by rw [← takeWhile_run ha hx, h, takeWhile_run hb hy]
  subst hrun
  exact ⟨rfl, List.append_cancel_left h⟩

/-- The character for which is written what an escaped text begins with. -/
def meant? : List Char → Option Char
  | '&' :: 'a' :: _ => some '&'
  | '&' :: 'l' :: _ => some '<'
  | '&' :: 'g' :: _ => some '>'
  | '&' :: 'q' :: _ => some '"'
  | '&' :: '#' :: _ => some '\''
  | c :: _ => some c
  | [] => none

theorem meant?_textEntity (c : Char) (x : List Char) : meant? (textEntity c ++ x) = some c := by
  unfold textEntity
  split
  · rfl
  · rfl
  · rfl
  · -- the character stands for itself, and it is no `&`
    rw [List.singleton_append]
    unfold meant?
    split <;> simp_all

theorem meant?_quotedEntity (c : Char) (x : List Char) :
    meant? (quotedEntity c ++ x) = some c := by
  unfold quotedEntity
  split
  · rfl
  · rfl
  · exact meant?_textEntity c x

theorem not_mem_textEntity (c : Char) : '<' ∉ textEntity c := by
  unfold textEntity
  split
  · decide
  · decide
  · decide
  · rename_i hless _
    exact fun hmem => hless (List.mem_singleton.1 hmem).symm

theorem not_mem_quotedEntity (c : Char) : '"' ∉ quotedEntity c := by
  unfold quotedEntity
  split
  · decide
  · decide
  · rename_i hquote _
    unfold textEntity
    split
    · decide
    · decide
    · decide
    · exact fun hmem => hquote (List.mem_singleton.1 hmem).symm

section

variable {code : Char → List Char} (hcode : ∀ c x, meant? (code c ++ x) = some c)
include hcode

theorem eq_of_flatMap_eq {s t : List Char} (h : s.flatMap code = t.flatMap code) : s = t := by
  have hnil : ∀ (c : Char) (x : List Char), [] ≠ code c ++ x := fun c x hnil => by
    have hmeant := hcode c x
    rw [← hnil] at hmeant
    cases hmeant
  induction s generalizing t with
  | nil =>
    cases t with
    | nil => rfl
    | cons d t => exact absurd h (hnil d _)
  | cons c s ih =>
    cases t with
    | nil => exact absurd h.symm (hnil c _)
    | cons d t =>
      rw [List.flatMap_cons, List.flatMap_cons] at h
      obtain rfl : c = d := Option.some.inj <| by rw [← hcode c, h, hcode d]
      rw [ih (List.append_cancel_left h)]

theorem written_inj (hc : ∀ d, c ∉ code d) {s t : List Char}
    (h : s.flatMap code ++ c :: x = t.flatMap code ++ c :: y) : s = t ∧ x = y := by
  have hruns : ∀ s : List Char, ∀ e ∈ s.flatMap code, (decide (e ≠ c)) = true := fun s e he => by
    obtain ⟨d, -, hd⟩ := List.mem_flatMap.1 he
    exact decide_eq_true fun heq => hc d (heq ▸ hd)
  have hstop : ∀ z, begins (fun e => decide (e ≠ c)) (c :: z) = false := fun _ =>
    decide_eq_false fun hne => hne rfl
  obtain ⟨hwritten, hrest⟩ := run_inj (hruns s) (hruns t) (hstop x) (hstop y) h
  exact ⟨eq_of_flatMap_eq hcode hwritten, (List.cons.inj hrest).2⟩

end

/-- The characters that may stand in the names of markup. -/
def isNameChar (c : Char) : Bool :=
  !isBlank c && decide (c ∉ ['<', '>', '&', '"', '\'', '=', '/'])

/-- The text can be read as a name where markup has it. -/
def IsName (s : String) : Prop := ∀ c ∈ s.toList, isNameChar c = true

instance (s : String) : Decidable (IsName s) := List.decidableBAll _ _

end Text

namespace Formula

open Text

variable {f g : Formula} {x y : List Char}

/-! ### Attributes -/

/-- The characters of the attributes of a start tag, of which the texts are given. -/
def attributesChars (pairs : List (String × String)) : List Char :=
  pairs.flatMap fun (name, value) =>
    ' ' :: (name.toList ++ '=' :: '"' :: (value.toList.flatMap quotedEntity ++ ['"']))

theorem toList_markupAttributes (attributes : Fields Value) :
    (markupAttributes attributes).toList =
      attributesChars (attributes.map fun pair => (pair.1, pair.2.attributeText)) := by
  induction attributes with
  | nil => rfl
  | cons pair rest ih =>
    obtain ⟨name, value⟩ := pair
    have hcons : markupAttributes ((name, value) :: rest) =
        " " ++ name ++ "=\"" ++ escapeQuoted value.attributeText ++ "\"" ++
          markupAttributes rest := by
      simp [markupAttributes, String.join_cons]
    rw [hcons]
    simp [ih, attributesChars, escapeQuoted]

/-- The attributes of a start tag end where the tag ends. -/
theorem attributesChars_inj {pairs others : List (String × String)}
    (hpairs : ∀ pair ∈ pairs, IsName pair.1) (hothers : ∀ pair ∈ others, IsName pair.1)
    (h : attributesChars pairs ++ '>' :: x = attributesChars others ++ '>' :: y) :
    pairs = others ∧ x = y := by
  induction pairs generalizing others with
  | nil =>
    cases others with
    | nil => exact ⟨rfl, (List.cons.inj h).2⟩
    | cons other others => exact absurd (List.cons.inj h).1 (by decide)
  | cons pair pairs ih =>
    cases others with
    | nil => exact absurd (List.cons.inj h).1 (by decide)
    | cons other others =>
      obtain ⟨name, value⟩ := pair
      obtain ⟨name', value'⟩ := other
      obtain ⟨hname, hpairs⟩ := List.forall_mem_cons.1 hpairs
      obtain ⟨hname', hothers⟩ := List.forall_mem_cons.1 hothers
      simp only [attributesChars, List.flatMap_cons, List.cons_append, List.append_assoc,
        List.cons.injEq, true_and] at h
      obtain ⟨hnames, hrest⟩ := run_inj hname hname' rfl rfl h
      obtain ⟨hvalues, hrest⟩ := written_inj meant?_quotedEntity not_mem_quotedEntity
        (List.cons.inj (List.cons.inj hrest).2).2
      obtain ⟨rfl, hend⟩ := ih hpairs hothers hrest
      obtain rfl : name = name' := String.toList_inj.1 hnames
      obtain rfl : value = value' := String.toList_inj.1 hvalues
      exact ⟨rfl, hend⟩

/-- A name ends where the attributes begin, or where the tag ends. -/
theorem begins_attributesChars (pairs : List (String × String)) (x : List Char) :
    begins isNameChar (attributesChars pairs ++ '>' :: x) = false := by
  cases pairs with
  | nil => rfl
  | cons => rfl

/-! ### Nodes -/

/-- The kind of the node and its attributes have names that can be read in markup. -/
structure IsNamed (f : Formula) : Prop where
  kind : IsName f.kind.plain
  attributes : ∀ pair ∈ f.attributes, IsName pair.1

theorem IsNamed.shownKind (h : f.IsNamed) : IsName f.shownKind.plain := by
  rw [Formula.shownKind]
  split
  · decide
  · exact h.kind

theorem IsNamed.contentAttributes (h : f.IsNamed) :
    ∀ pair ∈ f.contentAttributes, IsName pair.1 := by
  have hnames : ∀ name ∈ f.attributes.map Prod.fst, IsName name :=
    List.forall_mem_map.2 h.attributes
  have hshown : ∀ name ∈ f.shownAttributes.map Prod.fst, IsName name := by
    rw [shownAttributes]
    split
    · rw [Fields.names_set]
      split
      · exact hnames
      · exact List.forall_mem_append.2 ⟨hnames, by decide⟩
    · exact hnames
  exact List.forall_mem_map.2 (List.forall_mem_map.1 hshown)

/-- The characters between the tags of a node. -/
def contentChars (f : Formula) : List Char :=
  if f.isToken then f.text.plain.toList.flatMap textEntity
  else f.children.flatMap fun c => c.markup.toList

theorem toList_markup (h : f.inferred = false) : f.markup.toList =
    '<' :: (f.shownKind.plain.toList ++ (attributesChars f.contentAttributes ++
      '>' :: (f.contentChars ++ '<' :: '/' :: (f.shownKind.plain.toList ++ ['>'])))) := by
  have hall : ∀ fs : List Formula,
      (markupAll fs).toList = fs.flatMap fun c => c.markup.toList := fun fs => by
    induction fs with
    | nil => rfl
    | cons c rest ih => rw [markupAll, String.toList_append, ih, List.flatMap_cons]
  have hcontent : (if f.isToken then escape f.text.plain else markupAll f.children).toList =
      f.contentChars := by
    rw [contentChars]
    split
    · exact String.toList_ofList
    · exact hall f.children
  rw [markup_eq, h, ← hcontent]
  simp [markupElement, toList_markupAttributes, contentAttributes]

/-- A node is not taken for the end of the element that it stands in. -/
theorem markup_ne_end (hshown : f.inferred = false) (hnamed : f.IsNamed) :
    f.markup.toList ++ x ≠ '<' :: '/' :: y := by
  intro h
  rw [toList_markup hshown] at h
  simp only [List.cons_append, List.append_assoc, List.cons.injEq, true_and] at h
  cases hkind : f.shownKind.plain.toList with
  | nil =>
    rw [hkind] at h
    cases hpairs : f.contentAttributes with
    | nil =>
      rw [hpairs] at h
      exact absurd (List.cons.inj h).1 (by decide)
    | cons =>
      rw [hpairs] at h
      exact absurd (List.cons.inj h).1 (by decide)
  | cons c rest =>
    rw [hkind] at h
    have hc := hnamed.shownKind c (hkind ▸ List.mem_cons_self)
    rw [(List.cons.inj h).1] at hc
    exact absurd hc (by decide)

/-- The nodes in an element end where the element ends, if what follows each of them can be told
from it. -/
theorem markups_inj {fs gs : List Formula}
    (hfs : ∀ f ∈ fs, f.inferred = false ∧ f.IsNamed)
    (hgs : ∀ g ∈ gs, g.inferred = false ∧ g.IsNamed)
    (hinj : ∀ f ∈ fs, ∀ g ∈ gs, ∀ x y : List Char,
      f.markup.toList ++ x = g.markup.toList ++ y → f.fragment = g.fragment ∧ x = y)
    (h : (fs.flatMap fun f => f.markup.toList) ++ '<' :: '/' :: x =
      (gs.flatMap fun g => g.markup.toList) ++ '<' :: '/' :: y) :
    fragmentAll fs = fragmentAll gs ∧ x = y := by
  induction fs generalizing gs with
  | nil =>
    cases gs with
    | nil => exact ⟨rfl, (List.cons.inj (List.cons.inj h).2).2⟩
    | cons g gs =>
      rw [List.flatMap_cons, List.append_assoc] at h
      obtain ⟨hshown, hnamed⟩ := hgs g List.mem_cons_self
      exact absurd h.symm (markup_ne_end hshown hnamed)
  | cons f fs ih =>
    rw [List.flatMap_cons, List.append_assoc] at h
    cases gs with
    | nil =>
      obtain ⟨hshown, hnamed⟩ := hfs f List.mem_cons_self
      exact absurd h (markup_ne_end hshown hnamed)
    | cons g gs =>
      rw [List.flatMap_cons, List.append_assoc] at h
      obtain ⟨hfirst, hrest⟩ := hinj f List.mem_cons_self g List.mem_cons_self _ _ h
      obtain ⟨hall, hend⟩ := ih (fun c hc => hfs c (List.mem_cons_of_mem _ hc))
        (fun c hc => hgs c (List.mem_cons_of_mem _ hc))
        (fun c hc d hd => hinj c (List.mem_cons_of_mem _ hc) d (List.mem_cons_of_mem _ hd)) hrest
      rw [fragmentAll, fragmentAll, hfirst, hall]
      exact ⟨rfl, hend⟩

/-! ### Formulas -/

/-- All nodes of the formula are regular and have names that can be read in markup. -/
def IsReadable (f : Formula) : Prop := ∀ p ∈ f.parts, p.IsRegular ∧ p.IsNamed

theorem isReadable_iff :
    f.IsReadable ↔ (f.IsRegular ∧ f.IsNamed) ∧ ∀ c ∈ f.children, c.IsReadable :=
  forall_parts_iff

/-- The markup of a formula ends where it ends, and tells by which content the formula is shown. -/
theorem fragment_of_markup (hf : f.IsReadable) (hg : g.IsReadable)
    (h : f.markup.toList ++ x = g.markup.toList ++ y) : f.fragment = g.fragment ∧ x = y := by
  induction f using induct generalizing g x y with
  | step f ih =>
    obtain ⟨⟨hregular, hnamed⟩, hchildren⟩ := isReadable_iff.1 hf
    obtain ⟨⟨hregular', hnamed'⟩, hchildren'⟩ := isReadable_iff.1 hg
    rw [toList_markup hregular.shown, toList_markup hregular'.shown] at h
    simp only [List.cons_append, List.append_assoc, List.cons.injEq, true_and] at h
    obtain ⟨hkinds, h⟩ := run_inj hnamed.shownKind hnamed'.shownKind
      (begins_attributesChars _ _) (begins_attributesChars _ _) h
    obtain ⟨hattributes, h⟩ := attributesChars_inj hnamed.contentAttributes
      hnamed'.contentAttributes h
    have hkind : f.shownKind.plain = g.shownKind.plain := String.toList_inj.1 hkinds
    have htoken : f.isToken = true ↔ g.isToken = true := by
      rw [← hregular.isToken_shown, ← hregular'.isToken_shown, hkind]
    have hcontent : f.shownContent = g.shownContent ∧
        f.shownKind.plain.toList ++ '>' :: x = g.shownKind.plain.toList ++ '>' :: y := by
      rw [contentChars, contentChars] at h
      rw [shownContent, shownContent]
      by_cases hf : f.isToken = true
      · rw [if_pos hf, if_pos (htoken.1 hf)] at h ⊢
        obtain ⟨s, hs⟩ := hregular.spelled hf
        obtain ⟨t, ht⟩ := hregular'.spelled (htoken.1 hf)
        rw [hs, ht] at h ⊢
        obtain ⟨htexts, hend⟩ := written_inj meant?_textEntity not_mem_textEntity h
        obtain rfl : s = t := String.toList_inj.1 htexts
        exact ⟨rfl, (List.cons.inj hend).2⟩
      · rw [if_neg hf, if_neg (mt htoken.2 hf)] at h ⊢
        have hnodes : ∀ f : Formula, f.IsReadable → f.inferred = false ∧ f.IsNamed := fun f hf =>
          ⟨(isReadable_iff.1 hf).1.1.shown, (isReadable_iff.1 hf).1.2⟩
        exact markups_inj (fun c hc => hnodes c (hchildren c hc))
          (fun c hc => hnodes c (hchildren' c hc))
          (fun c hc d hd x y => ih c hc (hchildren c hc) (hchildren' d hd)) h
    obtain ⟨hshown, hend⟩ := hcontent
    rw [hkinds] at hend
    rw [fragment_eq, fragment_eq, hkind, hattributes, hshown]
    exact ⟨rfl, (List.cons.inj (List.append_cancel_left hend)).2⟩

/-- Formulas with the same markup are shown by the same content. -/
theorem fragment_eq_of_markup (hf : f.IsReadable) (hg : g.IsReadable) (h : f.markup = g.markup) :
    f.fragment = g.fragment :=
  (fragment_of_markup (x := []) (y := []) hf hg (by rw [h])).1

/-- An atom around a token with a text that looks like markup. -/
def atomOfMarkup : Formula where
  kind := "TeXAtom"
  children := [.token "mtext" "</mtext>&lt;" [("id", "\">'")] none]

/-- The row that is shown like this atom. -/
def rowOfMarkup : Formula where
  kind := "mrow"
  children := [.token "mtext" "</mtext>&lt;" [("id", "\">'")] (some .ord)]
  attributes := [("data-texclass", "ORD")]
  texClass := some .inner

theorem fragment_eq_of_markup_atomOfMarkup :
    atomOfMarkup ≠ rowOfMarkup ∧ atomOfMarkup.IsReadable ∧ rowOfMarkup.IsReadable ∧
    atomOfMarkup.markup = rowOfMarkup.markup ∧ atomOfMarkup.fragment = rowOfMarkup.fragment := by
  have htoken : ∀ texClass, IsReadable (.token "mtext" "</mtext>&lt;" [("id", "\">'")] texClass) :=
    fun _ => isReadable_iff.2
      ⟨⟨⟨rfl, ⟨"mtext", rfl⟩, List.nodup_singleton "id", fun _ => ⟨_, rfl⟩, fun _ => rfl⟩,
        ⟨show IsName "mtext" by decide, List.forall_mem_singleton.2 (show IsName "id" by decide)⟩⟩,
        fun _ hc => absurd hc List.not_mem_nil⟩
  have hatom : atomOfMarkup.IsReadable := isReadable_iff.2
    ⟨⟨⟨rfl, ⟨_, rfl⟩, by decide, fun h => absurd h (by decide), fun h => absurd h (by decide)⟩,
      ⟨by decide, by decide⟩⟩, fun c hc => List.mem_singleton.1 hc ▸ htoken none⟩
  have hrow : rowOfMarkup.IsReadable := isReadable_iff.2
    ⟨⟨⟨rfl, ⟨_, rfl⟩, by decide, fun h => absurd h (by decide), fun h => absurd h (by decide)⟩,
      ⟨by decide, by decide⟩⟩, fun c hc => List.mem_singleton.1 hc ▸ htoken (some .ord)⟩
  have hmarkup : atomOfMarkup.markup = rowOfMarkup.markup := by decide +kernel
  have hkind : atomOfMarkup.kind ≠ rowOfMarkup.kind := by decide
  exact ⟨fun heq => hkind (congrArg kind heq), hatom, hrow, hmarkup,
    fragment_eq_of_markup hatom hrow hmarkup⟩

end Formula

end Formulary
