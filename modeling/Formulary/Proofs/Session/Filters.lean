import Formulary.Proofs.Reader.StackSoundness
import Formulary.Source

/-! # Filters around the reading

Filters change what is read before and the formula after, and may refuse some mathematics.  A filter
that fits what it works on takes it to something of its kind or refuses it (`Filter.Keeps`).  If all
filters of a source fit, then reading its mathematics leads to a formula or to an error of TeX
(`Source.IsOrderly.compile_yields`).

Whether mathematics is set apart decides what its formula says.  If it does not decide whether there
is one, the source is steady (`Source.IsSteady`).  A filter that looks at nothing but its data, and
does not refuse one formula and accept another, leaves a source steady
(`Source.IsOrderly.isSteady`), and the filters that replace, set attributes, wrap, set apart or
refuse everything are such (`Filter.IsOffered`). -/

namespace Formulary

/-- The filter takes data of a kind to data of that kind, or refuses it with an error of TeX. -/
def Filter.Keeps (P : Filtered → Prop) (filter : Filter) : Prop :=
  ∀ math display data, P data → Yields P (filter.apply math display data).2

/-- The data is of the kind that a source reads: a text, or a place of the document. -/
def Source.Takes (source : Source) (data : Filtered) : Prop :=
  if source.readsStrings then data.text?.isSome = true else ∃ n, data = .place n

/-- A source for TeX or for MathML whose filters fit what it reads and what it makes of it. -/
structure Source.IsOrderly (source : Source) : Prop where
  format : (∃ delims dialect limit, source.format = .tex delims dialect limit ∧ dialect.IsSound) ∨
    source.format = .mathml
  before : ∀ filter ∈ source.before, filter.Keeps source.Takes
  after : ∀ filter ∈ source.after, filter.Keeps fun data => ∃ f, data = .formula f

/-! ### Fitting filters -/

theorem Filter.applyAll_yields {P : Filtered → Prop} {filters : List Filter}
    (h : ∀ filter ∈ filters, filter.Keeps P) (math : Subject) (display : Bool) {data : Filtered}
    (hdata : P data) : Yields P (applyAll filters math display data).2 := by
  induction filters generalizing display data with
  | nil => exact hdata
  | cons filter rest ih =>
    have happly := h filter (List.mem_cons_self ..) math display data hdata
    rw [applyAll]
    generalize filter.apply math display data = outcome at happly
    match outcome, happly with
    | (display, .ok data), happly =>
      exact ih (fun other hother => h other (List.mem_cons_of_mem _ hother)) display happly
    | (_, .error (.tex _)), _ => trivial

namespace Source

variable {source : Source}

theorem IsOrderly.read_yields (h : source.IsOrderly) (display : Bool) {data : Filtered}
    (hdata : source.Takes data) : Yields (fun _ => True) (source.read display data) := by
  rcases h.format with ⟨delims, dialect, limit, hformat, hsound⟩ | hformat
  · have htext : data.text?.isSome = true := by simpa [Takes, readsStrings, hformat] using hdata
    obtain ⟨s, hs⟩ := Option.isSome_iff_exists.1 htext
    simp only [read, hformat, hs]
    refine (readTex_yields hsound limit s).bind fun row hrow => ?_
    obtain ⟨f, rfl⟩ := Option.isSome_iff_exists.1 hrow
    trivial
  · obtain ⟨n, rfl⟩ : ∃ n, data = .place n := by simpa [Takes, readsStrings, hformat] using hdata
    simp only [read, hformat]
    trivial

theorem IsOrderly.heeds (h : source.IsOrderly) : ¬source.ignoresFilters = true := by
  rcases h.format with ⟨_, _, _, hformat, -⟩ | hformat <;> simp [ignoresFilters, hformat]

theorem IsOrderly.compileData_yields (h : source.IsOrderly) (math : Subject) (display : Bool)
    {data : Filtered} (hdata : source.Takes data) :
    Yields (fun _ => True) (source.compileData math display data).2 := by
  have hbefore := Filter.applyAll_yields h.before math display hdata
  rw [compileData, if_neg h.heeds]
  generalize Filter.applyAll source.before math display data = outcome at hbefore
  match outcome, hbefore with
  | (_, .error (.tex _)), _ => trivial
  | (display, .ok data), hbefore =>
    have hread := h.read_yields display hbefore
    dsimp only
    generalize source.read display data = result at hread
    match result, hread with
    | .error (.tex _), _ => trivial
    | .ok formula, _ =>
      have hafter := Filter.applyAll_yields h.after math display ⟨formula, rfl⟩
      dsimp only
      generalize Filter.applyAll source.after math display (.formula formula) = outcome at hafter
      match outcome, hafter with
      | (_, .error (.tex _)), _ => trivial
      | (_, .ok _), ⟨_, rfl⟩ => trivial

/-- Reading leads to a formula or to an error of TeX. -/
theorem IsOrderly.compile_yields (h : source.IsOrderly) {doc : Document} {math : Subject}
    {data : Filtered} (hdata : math.data doc = .ok data) (htakes : source.Takes data)
    (display : Bool) : Yields (fun _ => True) (source.compile doc display math).2 := by
  rw [compile, hdata]
  exact h.compileData_yields math display htakes

end Source

/-! ### Whether there is a formula -/

/-- Whether the mathematics is set apart makes no difference to the filter. -/
def Filter.IsBlind (filter : Filter) : Prop :=
  ∀ math display display' data,
    (filter.apply math display data).2 = (filter.apply math display' data).2

/-- The filter makes formulas of all formulas that are read in some mathematics, or refuses them
all. -/
def Filter.IsUniform (filter : Filter) : Prop :=
  ∀ math, (∀ display f, ∃ g, (filter.apply math display (.formula f)).2 = .ok (.formula g)) ∨
    ∀ display f, ∃ e, (filter.apply math display (.formula f)).2 = .error e

/-- Whether mathematics is set apart makes no difference to whether the source can read it. -/
def Source.IsSteady (source : Source) : Prop :=
  ∀ doc display display' math,
    (source.compile doc display math).2.isOk = (source.compile doc display' math).2.isOk

theorem Filter.applyAll_display {filters : List Filter} (h : ∀ filter ∈ filters, filter.IsBlind)
    (math : Subject) (display display' : Bool) (data : Filtered) :
    (applyAll filters math display data).2 = (applyAll filters math display' data).2 := by
  induction filters generalizing display display' data with
  | nil => rfl
  | cons filter rest ih =>
    obtain ⟨hblind, hrest⟩ := List.forall_mem_cons.1 h
    have hfirst := hblind math display display' data
    rw [applyAll, applyAll]
    generalize filter.apply math display data = outcome,
      filter.apply math display' data = outcome' at hfirst
    obtain ⟨display, result⟩ := outcome
    obtain ⟨display', result'⟩ := outcome'
    obtain rfl : result = result' := hfirst
    cases result with
    | error failure => rfl
    | ok data => exact ih hrest display display' data

/-- Uniform filters, one after the other, make formulas of all formulas or of none. -/
theorem Filter.applyAll_formula {filters : List Filter} (h : ∀ filter ∈ filters, filter.IsUniform)
    (math : Subject) :
    (∀ display f, ∃ g, (applyAll filters math display (.formula f)).2 = .ok (.formula g)) ∨
      ∀ display f, ∃ e, (applyAll filters math display (.formula f)).2 = .error e := by
  induction filters with
  | nil => exact .inl fun _ f => ⟨f, rfl⟩
  | cons filter rest ih =>
    obtain ⟨huniform, hrest⟩ := List.forall_mem_cons.1 h
    rcases huniform math with hsome | hnone
    · refine (ih hrest).imp (fun hrest display f => ?_) fun hrest display f => ?_ <;>
      · obtain ⟨g, hg⟩ := hsome display f
        rw [applyAll]
        generalize filter.apply math display (.formula f) = outcome at hg
        obtain ⟨display, result⟩ := outcome
        obtain rfl : result = _ := hg
        exact hrest display g
    · refine .inr fun display f => ?_
      obtain ⟨e, he⟩ := hnone display f
      rw [applyAll]
      generalize filter.apply math display (.formula f) = outcome at he
      obtain ⟨display, result⟩ := outcome
      obtain rfl : result = _ := he
      exact ⟨e, rfl⟩

namespace Source

variable {source : Source}

theorem IsOrderly.read_isOk (h : source.IsOrderly) (display display' : Bool) (data : Filtered) :
    (source.read display data).isOk = (source.read display' data).isOk := by
  rcases h.format with ⟨delims, dialect, limit, hformat, -⟩ | hformat
  · simp only [read, hformat]
    cases data.text? with
    | none => rfl
    | some s =>
      dsimp only
      cases readTex dialect limit s with
      | error failure => rfl
      | ok row => cases row <;> rfl
  · simp only [read, hformat]
    cases data <;> rfl

theorem IsOrderly.compileData_isOk (h : source.IsOrderly)
    (hbefore : ∀ filter ∈ source.before, filter.IsBlind)
    (hafter : ∀ filter ∈ source.after, filter.IsUniform) (math : Subject) (display display' : Bool)
    (data : Filtered) :
    (source.compileData math display data).2.isOk =
      (source.compileData math display' data).2.isOk := by
  have hsame := Filter.applyAll_display hbefore math display display' data
  rw [compileData, compileData, if_neg h.heeds, if_neg h.heeds]
  generalize Filter.applyAll source.before math display data = outcome,
    Filter.applyAll source.before math display' data = outcome' at hsame
  obtain ⟨display, result⟩ := outcome
  obtain ⟨display', result'⟩ := outcome'
  obtain rfl : result = result' := hsame
  cases result with
  | error failure => rfl
  | ok data =>
    have hread := h.read_isOk display display' data
    dsimp only
    generalize source.read display data = first, source.read display' data = second at hread
    match first, second, hread with
    | .error _, .error _, _ => rfl
    | .ok f, .ok f', _ =>
      dsimp only
      rcases Filter.applyAll_formula hafter math with hall | hall <;>
      · obtain ⟨g, hg⟩ := hall display f
        obtain ⟨g', hg'⟩ := hall display' f'
        generalize Filter.applyAll source.after math display (.formula f) = outcome,
          Filter.applyAll source.after math display' (.formula f') = outcome' at hg hg'
        obtain ⟨display, result⟩ := outcome
        obtain ⟨display', result'⟩ := outcome'
        obtain rfl : result = _ := hg
        obtain rfl : result' = _ := hg'
        rfl

/-- Filters that look at their data only, and make formulas of all formulas or of none, leave a
source steady. -/
theorem IsOrderly.isSteady (h : source.IsOrderly)
    (hbefore : ∀ filter ∈ source.before, filter.IsBlind)
    (hafter : ∀ filter ∈ source.after, filter.IsUniform) : source.IsSteady := by
  intro doc display display' math
  rw [compile, compile]
  cases math.data doc with
  | error fault => rfl
  | ok data => exact h.compileData_isOk hbefore hafter math display display' data

end Source

/-! ### Filters that are offered -/

/-- One of the filters that replace, set an attribute, wrap, set apart, or refuse. -/
inductive Filter.IsOffered : Filter → Prop
  | replaces (pattern put : String) : IsOffered (.replace pattern put)
  | sets (name : String) (value : Value) : IsOffered (.attribute name value)
  | wraps (kind : Value) : IsOffered (.wrap kind)
  | displays (apart : Bool) : IsOffered (.display apart)
  | fails (id message : String) : IsOffered (.fail id message)

theorem Filter.IsOffered.isBlind {filter : Filter} (h : filter.IsOffered) : filter.IsBlind := by
  intro math display display' data
  cases h with
  | replaces pattern put =>
    simp only [Filter.replace]
    cases data.text? <;> rfl
  | sets name value => cases data <;> rfl
  | wraps kind =>
    cases data with
    | place node => cases node <;> rfl
    | _ => rfl
  | displays apart => rfl
  | fails id message => rfl

theorem Filter.IsOffered.isUniform {filter : Filter} (h : filter.IsOffered) : filter.IsUniform := by
  intro math
  cases h with
  | replaces => exact .inr fun _ _ => ⟨_, rfl⟩
  | sets => exact .inl fun _ _ => ⟨_, rfl⟩
  | wraps => exact .inl fun _ _ => ⟨_, rfl⟩
  | displays => exact .inl fun _ f => ⟨f, rfl⟩
  | fails => exact .inr fun _ _ => ⟨_, rfl⟩

end Formulary
