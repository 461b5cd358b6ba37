import Formulary.Proofs.Document.Body
import Formulary.Proofs.Reader.BraceGroups
import Formulary.Proofs.Reader.KeptProperties
import Formulary.Proofs.Session.Compilation

/-! # Elements of a formula

The content that shows a formula has an element for each of its nodes.  Reading TeX makes nodes of a
few kinds only, so no formula that is read from a text is shown with an element that holds running
content (`readTex_isBodiless`).  A formula that is read from an element has such a node only if
there is such an element in it (`Formula.isBodiless_ofContent`). -/

namespace Formulary

open Formulary.Tree

/-! ### Formulas -/

/-- No node of the formula is shown as an element that holds running content. -/
def Formula.IsBodiless (f : Formula) : Prop := f.fragment.IsBodiless

namespace Formula

theorem fragmentAll_eq (fs : List Formula) : fragmentAll fs = fs.map fragment := by
  induction fs with
  | nil => rfl
  | cons f rest ih => rw [fragmentAll, ih, List.map_cons]

/-- A token is shown with its text, and any other node with its children. -/
theorem isBodiless_iff {f : Formula} : f.IsBodiless ↔
    f.shownKind.plain ≠ "body" ∧ (f.isToken = false → ∀ c ∈ f.children, c.IsBodiless) := by
  obtain ⟨kind, children, attributes, text, texClass, inferred⟩ := f
  rw [IsBodiless, fragment, Fragment.build, isBodiless_element]
  refine and_congr_right fun _ => ?_
  cases htoken : isToken ⟨kind, children, attributes, text, texClass, inferred⟩ with
  | true =>
    simp only [if_true, Bool.true_eq_false, false_imp_iff, iff_true]
    split
    · intro c hc
      rw [List.mem_singleton.1 hc]
      exact isBodiless_string
    · exact fun c hc => absurd hc List.not_mem_nil
  | false =>
    rw [if_neg (by decide), fragmentAll_eq, List.forall_mem_map]
    exact ⟨fun h _ => h, fun h => h rfl⟩

/-! ### Building -/

variable {f : Formula} {fs : List Formula} {kind : Value} {attributes : Fields Value}
  {texClass : Option TexClass}

theorem isBodiless_token (h : kind ∈ tokenKinds) (text : Value) :
    (token kind text attributes texClass).IsBodiless := by
  have htoken : (token kind text attributes texClass).isToken = true := decide_eq_true h
  have hshown : ∀ kind ∈ tokenKinds,
      (if kind = "TeXAtom" then "mrow" else kind : Value).plain ≠ "body" := by decide
  exact isBodiless_iff.2 ⟨hshown kind h, fun hnot => absurd (htoken.symm.trans hnot) (by decide)⟩

/-- What a node puts into its parent is the node or its children. -/
theorem IsBodiless.contents (h : f.IsBodiless) : ∀ c ∈ f.contents, c.IsBodiless := by
  rw [Formula.contents]
  split
  · rename_i hrow
    have hkind : f.kind = "mrow" := of_decide_eq_true (Bool.and_eq_true_iff.1 hrow).1
    refine (isBodiless_iff.1 h).2 ?_
    rw [isToken, hkind]
    decide
  · intro c hc
    exact List.mem_singleton.1 hc ▸ h

theorem isBodiless_put (hkind : f.shownKind.plain ≠ "body") (hchildren : f.children = [])
    (h : ∀ c ∈ fs, c.IsBodiless) : (f.put fs).IsBodiless := by
  refine isBodiless_iff.2 ⟨hkind, fun _ c hc => ?_⟩
  have hc : c ∈ f.children ++ fs.flatMap Formula.contents := hc
  rw [hchildren, List.nil_append] at hc
  obtain ⟨g, hg, hc⟩ := List.mem_flatMap.1 hc
  exact (h g hg).contents c hc

theorem isBodiless_node (hkind : kind.plain ≠ "body") (h : ∀ c ∈ fs, c.IsBodiless) :
    (node kind fs attributes texClass).IsBodiless := by
  refine isBodiless_put ?_ rfl h
  rw [shownKind]
  split
  · decide
  · exact hkind

theorem isBodiless_inferredRow (h : ∀ c ∈ fs, c.IsBodiless) : (inferredRow fs).IsBodiless :=
  isBodiless_put (by decide) rfl h

theorem isBodiless_fenced (stretchy : Bool) (opener closer : Value) (h : f.IsBodiless) :
    (fenced stretchy opener f closer).IsBodiless := by
  have hfence : ∀ (fence : Value) (side : TexClass),
      (token "mo" fence (Formula.fence stretchy) (some side)).IsBodiless := fun fence side =>
    isBodiless_token (by decide) fence
  refine isBodiless_node (by decide) fun c hc => ?_
  simp only [List.mem_cons, List.not_mem_nil, or_false] at hc
  rcases hc with rfl | rfl | rfl
  · exact hfence opener .opening
  · exact h
  · exact hfence closer .closing

end Formula

/-! ### Reading -/

/-- No node in the frame is shown with an element that holds running content. -/
def Frame.IsBodiless (frame : Frame) : Prop := ∀ f, some f ∈ frame.nodes → f.IsBodiless

namespace Frame

open Reader Formula

variable {kinds : FrameKinds} {frame item after : Frame} {f : Formula} {fs : List Formula}

theorem isBodiless_of_nodes (h : frame.nodes = []) : frame.IsBodiless := fun f hf => by
  rw [h] at hf
  cases hf

theorem IsBodiless.rows (h : frame.IsBodiless) (hf : frame.Rows f) : f.IsBodiless := by
  cases hf with
  | only hf => exact h f hf
  | row hfs => exact isBodiless_inferredRow fun c hc => h c (hfs c hc)

/-- What a frame becomes has no such node. -/
theorem IsBodiless.builds (h : frame.IsBodiless) (hf : frame.Builds f) : f.IsBodiless := by
  have hnode : ∀ {kind : Value} {row : Formula} {attributes : Fields Value}
      {texClass : Option TexClass}, kind.plain ≠ "body" → frame.Rows row →
        (node kind [row] attributes texClass).IsBodiless := fun hkind hrow =>
    isBodiless_node hkind fun c hc => List.mem_singleton.1 hc ▸ h.rows hrow
  cases hf with
  | plain hf => exact h.rows hf
  | atom hrow => exact hnode (by decide) hrow
  | environment hrow => exact hnode (by decide) hrow
  | fence _ hrow => exact isBodiless_fenced _ _ _ (h.rows hrow)
  | braket _ _ hrow => exact isBodiless_fenced _ _ _ (h.rows hrow)

theorem isBodiless_of_wrap {f : Option Formula} (h : kinds.wrap f = .ok item)
    (hf : ∀ g, f = some g → g.IsBodiless) : item.IsBodiless := by
  rw [FrameKinds.wrap] at h
  cases hcreate : kinds.create "mml" [] with
  | error e =>
    rw [hcreate] at h
    cases h
  | ok frame =>
    rw [hcreate] at h
    cases h
    exact fun g hg => hf g (List.mem_singleton.1 hg).symm

theorem isBodiless_of_create {name : String} {properties : Fields Value}
    (h : kinds.create name properties = .ok item) : item.nodes = [] := by
  rw [FrameKinds.create] at h
  split at h <;> cases h
  rfl

theorem IsBodiless.take (h : frame.IsBodiless) (hi : item.IsBodiless) :
    (frame.take item).IsBodiless := by
  intro f hf
  rcases List.mem_append.1 hf with hf | hf
  · exact h f hf
  · have hfirst : item.nodes.head?.join = some f := (List.mem_singleton.1 hf).symm
    cases hnodes : item.nodes with
    | nil =>
      rw [hnodes] at hfirst
      cases hfirst
    | cons g rest =>
      rw [hnodes] at hfirst
      obtain rfl : g = some f := hfirst
      exact hi f (hnodes ▸ List.mem_cons_self ..)

/-- What an item does to a frame brings in nothing else. -/
structure Brings (outcome : Frame × Except Failure Verdict) : Prop where
  after : outcome.1.IsBodiless
  result : ∀ result, outcome.2 = .ok (.close result) → result.IsBodiless

theorem IsBodiless.brings (h : frame.IsBodiless) : Brings (frame, frame.finish kinds) := by
  refine ⟨h, fun result hr => ?_⟩
  obtain ⟨built, result', heq, hwrap, hbuilt⟩ := finish_eq_ok hr
  cases heq
  exact isBodiless_of_wrap hwrap fun g hg => h.builds (hbuilt g hg)

theorem IsBodiless.check (h : frame.IsBodiless) (hi : item.IsBodiless) :
    Brings (frame.check kinds item) := by
  have hdecides := check_decides kinds frame item
  generalize frame.check kinds item = outcome at hdecides
  cases hdecides with
  | rejects => exact ⟨h, fun _ hr => by cases hr⟩
  | keeps => exact ⟨h, fun _ hr => by cases hr⟩
  | takes => exact ⟨h.take hi, fun _ hr => by cases hr⟩
  | finishes => exact h.brings
  | closes =>
    have hset : (frame.set "close" (item.get "delim" .absent)).IsBodiless := h
    exact hset.brings

end Frame

/-- The meaning makes identifiers of its own accord, not nodes of a kind that it names. -/
def Action.IsUnnamed : Action → Prop
  | .mathChar _ kind => kind = none
  | _ => True

instance : DecidablePred Action.IsUnnamed := fun action =>
  match action with
  | .mathChar _ kind => inferInstanceAs (Decidable (kind = none))
  | .identifier | .number | .other | .openGroup | .closeGroup | .mathOp _ _ | .left | .right
  | .begin | .finish | .space _ | .linebreak | .template _ _ | .illegalParameter
  | .braket _ _ _ _ | .bar | .misused _ _ => inferInstanceAs (Decidable True)

theorem Action.Makes.isBodiless {t : Token} {action : Action} {f : Formula} (h : action.Makes t f)
    (ha : action.IsUnnamed) : f.IsBodiless := by
  cases h with
  | mathChar char kind =>
    obtain rfl : kind = none := ha
    exact Formula.isBodiless_token (by decide) _
  | atom side => exact Formula.isBodiless_node (by decide) fun c hc => absurd hc List.not_mem_nil
  | _ => exact Formula.isBodiless_token (by decide) _

section

variable {d : Dialect} (hv : ∀ lexicon ∈ d.vocabulary, ∀ entry ∈ lexicon.entries, entry.2.IsUnnamed)
include hv

theorem Dialect.keeps_isBodiless : d.Keeps Frame.IsBodiless where
  check _ _ h hi := ⟨(h.check hi).after, (h.check hi).result⟩
  recount _ _ h := h
  made _ _ f _ hmeaning hf hitem := by
    have ha := Reader.meaning_keeps hv (by decide) hmeaning
    exact Frame.isBodiless_of_wrap hitem fun g hg => Option.some.inj hg ▸ hf.isBodiless ha
  pushed _ _ _ _ item _ _ _ hitem := by
    have hnodes : item.nodes = [] := Frame.isBodiless_of_create hitem
    exact Frame.isBodiless_of_nodes hnodes
  ends _ item _ _ hitem := by
    have hnodes : item.nodes = [] := Frame.isBodiless_of_create hitem
    exact Frame.isBodiless_of_nodes hnodes

/-- A formula that is read from a text is shown without running content. -/
theorem readTex_isBodiless {limit : Int} {text : String} {f : Formula}
    (hf : readTex d limit text = .ok (some f)) : f.IsBodiless := by
  obtain ⟨item, hitem, hmem⟩ := readTex_keeps (Dialect.keeps_isBodiless hv) hf
  exact hitem f hmem

end

theorem Dialect.usual_isUnnamed {lexicon : Lexicon} (h : lexicon ∈ Dialect.usual.vocabulary) :
    ∀ entry ∈ lexicon.entries, entry.2.IsUnnamed := by
  rcases usual_lexicons h with rfl | rfl | rfl | rfl <;> decide

/-! ### Formulas from content -/

namespace Formula

section

variable {α : Type}

theorem ofContentAll_eq (ts : List (Tree α)) :
    ofContentAll ts = (ts.filter fun t => !isSkipped t).map ofContent := by
  induction ts with
  | nil => rfl
  | cons t rest ih =>
    rw [ofContentAll, List.filter_cons]
    cases isSkipped t with
    | true => exact ih
    | false => exact congrArg (_ :: ·) ih

/-- A formula that is read from an element shows no element with running content if there is none
in it. -/
theorem isBodiless_ofContent (t : Tree α) (h : t.IsBodiless) : (ofContent t).IsBodiless := by
  induction t using Tree.induct with
  | step t ih =>
    cases t with
    | string label kind value =>
      refine isBodiless_node ?_ fun c hc => absurd hc List.not_mem_nil
      cases kind <;> decide
    | element label tag attributes children =>
      obtain ⟨htag, hchildren⟩ := isBodiless_element.1 h
      rw [ofContent]
      split
      · rename_i htoken
        exact isBodiless_token htoken _
      · rw [ofContentAll_eq]
        refine isBodiless_node htag fun c hc => ?_
        obtain ⟨child, hchild, rfl⟩ := List.mem_map.1 hc
        have hmem := (List.mem_filter.1 hchild).1
        exact ih child hmem (hchildren child hmem)

end

end Formula

theorem isBodiless_typesetForm {root : Formula} (h : root.IsBodiless) (source : Source) :
    (Item.typesetForm source root).IsBodiless := by
  rw [Item.typesetForm]
  generalize hform : root.fragment = form
  have hform : form.IsBodiless := hform ▸ h
  cases form with
  | string => exact hform
  | element => exact isBodiless_element.2 (isBodiless_element.1 hform)

/-- The typeset form of a find that can be read brings no running content along. -/
theorem Find.isBodiless_formula {doc : Document} {f : Find} {root : Formula}
    (hf : f.formula? doc = some root)
    (hin : ∀ m display n, f = .element m display → doc.find? m = some n → n.IsBodiless) :
    root.IsBodiless := by
  cases f with
  | sighting x =>
    rw [formula?, Sighting.formula?] at hf
    split at hf
    · rename_i row hrow
      cases hf
      refine Formula.isBodiless_node (by decide) fun c hc => List.mem_singleton.1 hc ▸ ?_
      exact readTex_isBodiless (fun _ => Dialect.usual_isUnnamed) hrow
    · cases hf
  | element m display =>
    obtain ⟨n, hn, rfl⟩ := Option.map_eq_some_iff.1 hf
    exact Formula.isBodiless_ofContent n (hin m display n rfl hn)

end Formulary
