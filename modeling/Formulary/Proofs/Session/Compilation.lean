import Formulary.Proofs.Discovery.Surveys
import Formulary.Proofs.Reader.StackSoundness

/-! # Reading what was found

Reading the mathematics of a find gives a formula or an error of TeX (`Find.error?`,
`Find.compile_eq`), so `Session.compile` keeps the items of the finds that can be read and records
the others with their errors (`compile_finds`). -/

namespace Formulary

open Formulary.Tree Document

/-- The error of TeX for which a sighting cannot be read, if there is one. -/
def Sighting.error? (x : Sighting) : Option TexError :=
  match readTex .usual defaultLimit x.math with
  | .error (.tex e) => some e
  | _ => none

/-- The formula of a sighting that can be read. -/
def Sighting.formula? (x : Sighting) : Option Formula :=
  match readTex .usual defaultLimit x.math with
  | .ok (some row) =>
    some (.node "math" [row] (if x.display then [("display", .text "block")] else []) none)
  | _ => none

theorem unprocessed_lt_compiled : Stage.unprocessed.rank < Stage.compiled.rank := by decide

theorem Item.compile_of_ok {doc : Document} {item : Item} {display : Bool} {root : Formula}
    (hstage : item.stage.rank < Stage.compiled.rank)
    (h : item.source.compile doc item.display item.math = (display, .ok root)) :
    item.compile doc = ({ item with
      display, root := some root, stage := .compiled, readings := item.readings + 1 }, none) := by
  simp only [compile, if_pos hstage, h]

theorem Item.compile_of_error {doc : Document} {item : Item} {display : Bool} {failure : Failure}
    (hstage : item.stage.rank < Stage.compiled.rank)
    (h : item.source.compile doc item.display item.math = (display, .error failure)) :
    item.compile doc =
      ({ item with display, readings := item.readings + 1 }, some failure) := by
  simp only [compile, if_pos hstage, h]

namespace Find

/-- The error of TeX for which a find cannot be read, if there is one. -/
def error? : Find → Option TexError
  | sighting x => x.error?
  | element _ _ => none

/-- Whether a find can be read. -/
def isRead (f : Find) : Bool := f.error?.isNone

/-- The formula of a find that can be read. -/
def formula? (doc : Document) : Find → Option Formula
  | sighting x => x.formula?
  | element m _ => (doc.find? m).map .ofContent

/-- The item of a find after it was read. -/
def compiled (doc : Document) (container : Node) (blocks : List Block) (f : Find) : Item :=
  { f.item container blocks with root := f.formula? doc, stage := .compiled, readings := 1 }

/-- The item of a find that cannot be read, after the attempt. -/
def tried (container : Node) (blocks : List Block) (f : Find) : Item :=
  { f.item container blocks with readings := 1 }

/-- The find is in the document, if it is an element. -/
def IsIn (doc : Document) : Find → Prop
  | sighting _ => True
  | element m _ => ∃ n, doc.find? m = some n ∧ n.kind = "math" ∧ n.isElement = true

section

variable {doc : Document} {container : Node} {blocks : List Block} {f : Find}

theorem compile_of_error? {e : TexError} (h : f.error? = some e) :
    (f.item container blocks).compile doc = (f.tried container blocks, some (.tex e)) := by
  cases f with
  | element => cases h
  | sighting x =>
    have hread : readTex .usual defaultLimit x.math = .error (.tex e) := by
      simp only [error?, Sighting.error?] at h
      split at h
      · rename_i heq
        rw [heq, Option.some.inj h]
      · cases h
    have hcompile : Source.tex.compile doc x.display (.text x.math) =
        (x.display, .error (.tex e)) := by
      simp only [Source.tex, Source.compile_text, Source.read, Filtered.text?, hread, bind, Except.bind]
    exact Item.compile_of_error unprocessed_lt_compiled hcompile

theorem exists_row_of_isRead {x : Sighting} (h : (sighting x).isRead = true) :
    ∃ row, readTex .usual defaultLimit x.math = .ok (some row) := by
  have hyields := readTex_yields Dialect.usual_isSound defaultLimit x.math
  simp only [isRead, error?, Sighting.error?] at h
  split at h
  · cases h
  · rename_i hne
    cases hresult : readTex .usual defaultLimit x.math with
    | ok result =>
      rw [hresult] at hyields
      obtain ⟨row, rfl⟩ := Option.isSome_iff_exists.1 hyields
      exact ⟨row, rfl⟩
    | error failure =>
      cases failure with
      | tex e => exact absurd hresult (hne e)
      | fault f =>
        rw [hresult] at hyields
        exact hyields.elim

theorem compile_of_isRead (h : f.isRead = true) (hin : f.IsIn doc) :
    (f.item container blocks).compile doc = (f.compiled doc container blocks, none) ∧
      ∃ root, f.formula? doc = some root ∧ root.kind = .text "math" := by
  cases f with
  | element m display =>
    obtain ⟨n, hn, hkind, helement⟩ := hin
    have hformula : (element m display).formula? doc = some (.ofContent n) := by
      rw [formula?, hn, Option.map_some]
    constructor
    · have hcompile : Source.mathml.compile doc display (.node m) =
          (display, .ok (.ofContent n)) := by
        simp only [Source.compile, Subject.data, WellFormed.get_eq hn]
        rfl
      rw [Item.compile_of_ok unprocessed_lt_compiled hcompile, compiled, hformula]
      rfl
    · refine ⟨_, hformula, ?_⟩
      cases n with
      | string => cases helement
      | element label tag attributes children =>
        obtain rfl : tag = "math" := hkind
        have htoken : Value.text "math" ∉ Formula.tokenKinds := by decide
        rw [Formula.ofContent, if_neg htoken]
        rfl
  | sighting x =>
    obtain ⟨row, hread⟩ := exists_row_of_isRead h
    have hformula : (sighting x).formula? doc =
        some (.node "math" [row] (if x.display then [("display", .text "block")] else []) none) := by
      simp only [formula?, Sighting.formula?, hread]
    constructor
    · have hcompile : Source.tex.compile doc x.display (.text x.math) = (x.display,
          .ok (.node "math" [row] (if x.display then [("display", .text "block")] else []) none)) := by
        simp only [Source.tex, Source.compile_text, Source.read, Filtered.text?, hread, bind,
          Except.bind]
        rfl
      rw [Item.compile_of_ok unprocessed_lt_compiled hcompile, compiled, hformula]
      rfl
    · exact ⟨_, hformula, rfl⟩

end

end Find

/-! ### Reading all items -/

section

variable {doc : Document} {container : Node} {blocks : List Block}

/-- The items of the finds that can be read. -/
def itemsRead (doc : Document) (container : Node) (blocks : List Block) (finds : List Find) :
    List Item :=
  (finds.filter Find.isRead).map (Find.compiled doc container blocks)

/-- The items of the finds that cannot be read, with their errors. -/
def itemsFailed (container : Node) (blocks : List Block) (finds : List Find) :
    List (Item × TexError) :=
  finds.filterMap fun f => f.error?.map fun e => (f.tried container blocks, e)

theorem compileFrom_finds {finds : List Find} (hin : ∀ f ∈ finds, f.IsIn doc) {s : Session}
    (hdoc : s.document = doc) :
    ∃ reports, s.compileFrom (finds.map (Find.item container blocks)) = .ok { s with
      items := s.items ++ itemsRead doc container blocks finds
      errors := s.errors ++ itemsFailed container blocks finds
      reports } := by
  subst hdoc
  induction finds generalizing s with
  | nil => exact ⟨s.reports, by simp [Session.compileFrom, itemsRead, itemsFailed]⟩
  | cons f rest ih =>
    have hrest := fun g hg => hin g (List.mem_cons_of_mem _ hg)
    rw [List.map_cons, Session.compileFrom]
    cases herror : f.error? with
    | none =>
      have hread : f.isRead = true := by rw [Find.isRead, herror]; rfl
      rw [(Find.compile_of_isRead hread (hin f (List.mem_cons_self ..))).1]
      obtain ⟨reports, h⟩ := ih (s := { s with
        items := s.items ++ [f.compiled s.document container blocks] }.report
          (.compiled (f.compiled s.document container blocks) none)) hrest
      refine ⟨reports, h.trans ?_⟩
      simp [Session.report, itemsRead, itemsFailed, hread, herror]
    | some e =>
      have hread : f.isRead = false := by rw [Find.isRead, herror]; rfl
      rw [Find.compile_of_error? herror]
      obtain ⟨reports, h⟩ := ih (s := { s with
        errors := s.errors ++ [(f.tried container blocks, e)] }.report
          (.compiled (f.tried container blocks) (some e))) hrest
      refine ⟨reports, h.trans ?_⟩
      simp [Session.report, itemsRead, itemsFailed, hread, herror]

/-- The items of a session after reading them: those that can be read stay, and the others are
recorded with their errors. -/
theorem compile_finds {s : Session} {finds : List Find} (hin : ∀ f ∈ finds, f.IsIn s.document)
    (hitems : s.items = finds.map (Find.item container blocks))
    (hunfinished : .compile ∉ s.finished) :
    ∃ reports, s.compile = .ok ({ s with
      items := itemsRead s.document container blocks finds
      errors := s.errors ++ itemsFailed container blocks finds
      reports }.finish .compile .compiled) := by
  obtain ⟨reports, h⟩ := @compileFrom_finds _ container blocks _ hin { s with items := [] } rfl
  refine ⟨reports, ?_⟩
  rw [Session.compile, if_neg hunfinished, hitems, h]
  rfl

end

end Formulary
