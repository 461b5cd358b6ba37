import Formulary.Location

/-! # An offset has one place

The runs of a string cut it into pieces.  An offset is traced to the first run that reaches up to
it, so what is left of the offset is at least 1 there, unless the run is the first of all
(`Run.Traces`).  `locate` finds this run, and nothing where no run reaches up to the offset.

Tracing keeps the order of offsets and loses nothing: what is before the run and what is left make
up the offset again (`locate_traces`).  Runs of no length make no difference to this. -/

namespace Formulary

variable {α : Type} {runs rest : List (Run α)} {run : Run α} {i j j' : Nat} {k k' n n' : Int}

namespace Run

/-- The length of the string that some runs make up. -/
def total : List (Run α) → Int
  | [] => 0
  | run :: rest => run.length + total rest

@[simp] theorem total_nil : total ([] : List (Run α)) = 0 := rfl

@[simp] theorem total_cons : total (run :: rest) = run.length + total rest := rfl

theorem total_nonneg (h : ∀ run ∈ runs, 0 ≤ run.length) : 0 ≤ total runs := by
  induction runs with
  | nil => exact Int.le_refl 0
  | cons run rest ih =>
    obtain ⟨hrun, hrest⟩ := List.forall_mem_cons.1 h
    exact Int.add_nonneg hrun (ih hrest)

theorem total_take_succ (h : runs[j]? = some run) :
    total (runs.take (j + 1)) = total (runs.take j) + run.length := by
  induction runs generalizing j with
  | nil => cases h
  | cons first rest ih =>
    cases j with
    | zero =>
      obtain rfl := Option.some.inj h
      simp
    | succ j =>
      rw [List.take_succ_cons, List.take_succ_cons, total_cons, total_cons, ih h, Int.add_assoc]

/-- The offset `k` of the string that some runs make up is the offset `n` in the run number `j`, the
first one that reaches up to `k`. -/
structure Traces (runs : List (Run α)) (k : Int) (j : Nat) (n : Int) : Prop where
  inside : j < runs.length
  reaches : k ≤ total (runs.take (j + 1))
  first : ∀ i < j, total (runs.take (i + 1)) < k
  offset : n = k - total (runs.take j)

theorem traces_zero (h : k ≤ run.length) : Traces (run :: rest) k 0 k where
  inside := Nat.zero_lt_succ _
  reaches := by simpa using h
  first := fun i hi => absurd hi (Nat.not_lt_zero i)
  offset := by simp

theorem Traces.succ (h : Traces rest (k - run.length) j n) (hlt : run.length < k) :
    Traces (run :: rest) k (j + 1) n where
  inside := Nat.succ_lt_succ h.inside
  reaches := by
    have := h.reaches
    rw [List.take_succ_cons, total_cons]
    omega
  first := fun i hi => by
    rw [List.take_succ_cons, total_cons]
    cases i with
    | zero => simpa using hlt
    | succ i =>
      have := h.first i (Nat.lt_of_succ_lt_succ hi)
      omega
  offset := by
    rw [List.take_succ_cons, total_cons, h.offset]
    omega

/-- What is left in the first of all runs may be anything up to its length; in a later one it is at
least 1. -/
theorem Traces.bounds (h : Traces runs k j n) (hrun : runs[j]? = some run) :
    n ≤ run.length ∧ (0 ≤ k → 0 ≤ n) ∧ (0 < j → 1 ≤ n) := by
  have hreaches := h.reaches
  rw [total_take_succ hrun] at hreaches
  have hoffset := h.offset
  cases j with
  | zero =>
    rw [List.take_zero, total_nil] at hoffset hreaches
    exact ⟨by omega, by omega, fun hlt => absurd hlt (Nat.lt_irrefl 0)⟩
  | succ j =>
    have hfirst := h.first j (Nat.lt_succ_self j)
    exact ⟨by omega, by omega, fun _ => by omega⟩

theorem Traces.total_add (h : Traces runs k j n) : total (runs.take j) + n = k := by
  rw [h.offset]
  omega

theorem Traces.run_le (h : Traces runs k j n) (h' : Traces runs k' j' n') (hle : k ≤ k') :
    j ≤ j' := by
  refine Nat.le_of_not_lt fun hlt => ?_
  have hfirst := h.first j' hlt
  have hreaches := h'.reaches
  omega

theorem Traces.lt (h : Traces runs k j n) (h' : Traces runs k' j' n') (hlt : k < k') :
    j < j' ∨ j = j' ∧ n < n' := by
  refine (Nat.lt_or_eq_of_le (h.run_le h' (Int.le_of_lt hlt))).imp_right fun heq => ⟨heq, ?_⟩
  subst heq
  rw [h.offset, h'.offset]
  omega

/-- Offsets are traced in one way each, to pairs in the order of the offsets. -/
theorem Traces.lt_iff (h : Traces runs k j n) (h' : Traces runs k' j' n') :
    (k = k' ↔ j = j' ∧ n = n') ∧ (k < k' ↔ j < j' ∨ j = j' ∧ n < n') := by
  rcases Int.lt_trichotomy k k' with hlt | rfl | hgt
  · have := h.lt h' hlt
    omega
  · obtain rfl := Nat.le_antisymm (h.run_le h' (Int.le_refl k)) (h'.run_le h (Int.le_refl k))
    have := h.offset.trans h'.offset.symm
    omega
  · have := h'.lt h hgt
    omega

end Run

open Run

theorem exists_locate (hne : runs ≠ []) (h : k ≤ total runs) (delimiter : String) :
    ∃ j n run, Traces runs k j n ∧ runs[j]? = some run ∧
      locate runs k delimiter = ⟨some run.node, n, delimiter⟩ := by
  induction runs generalizing k with
  | nil => exact absurd rfl hne
  | cons run rest ih =>
    rw [locate]
    by_cases hle : k ≤ run.length
    · exact ⟨0, k, run, traces_zero hle, rfl, if_pos hle⟩
    · rw [total_cons] at h
      have hrest : rest ≠ [] := by
        rintro rfl
        rw [total_nil] at h
        omega
      obtain ⟨j, n, found, htraces, hfound, hlocate⟩ :=
        ih hrest (k := k - run.length) (by omega)
      exact ⟨j + 1, n, found, htraces.succ (Int.not_le.1 hle), hfound, (if_neg hle).trans hlocate⟩

theorem locate_of_total_lt (hlengths : ∀ run ∈ runs, 0 ≤ run.length) (h : total runs < k)
    (delimiter : String) : locate runs k delimiter = ⟨none, 0, delimiter⟩ := by
  induction runs generalizing k with
  | nil => rfl
  | cons run rest ih =>
    obtain ⟨-, hrest⟩ := List.forall_mem_cons.1 hlengths
    have hnonneg := total_nonneg hrest
    rw [total_cons] at h
    rw [locate, if_neg (by omega)]
    exact ih hrest (by omega)

/-- An offset up to the end of the string that some runs make up is located in the first run that
reaches up to it, and any other offset nowhere.  From the run and the offset in it the offset comes
back, and pairs of these stand in the order of the offsets. -/
theorem locate_traces (runs : List (Run α)) (hlengths : ∀ run ∈ runs, 0 ≤ run.length)
    (delimiter : String) (k : Int) :
    (runs ≠ [] ∧ k ≤ total runs → ∃ j n run, Traces runs k j n ∧ runs[j]? = some run ∧
      locate runs k delimiter = ⟨some run.node, n, delimiter⟩ ∧
      n ≤ run.length ∧ (0 ≤ k → 0 ≤ n) ∧ (0 < j → 1 ≤ n)) ∧
    (¬(runs ≠ [] ∧ k ≤ total runs) → locate runs k delimiter = ⟨none, 0, delimiter⟩) ∧
    ∀ j n, Traces runs k j n → total (runs.take j) + n = k ∧
      ∀ k' j' n', Traces runs k' j' n' →
        (k = k' ↔ j = j' ∧ n = n') ∧ (k < k' ↔ j < j' ∨ j = j' ∧ n < n') := by
  refine ⟨fun ⟨hne, hle⟩ => ?_, fun hnot => ?_, fun j n h => ?_⟩
  · obtain ⟨j, n, run, htraces, hrun, hlocate⟩ := exists_locate hne hle delimiter
    exact ⟨j, n, run, htraces, hrun, hlocate, htraces.bounds hrun⟩
  · by_cases hne : runs = []
    · subst hne
      rfl
    · exact locate_of_total_lt hlengths (Int.not_le.1 fun hle => hnot ⟨hne, hle⟩) delimiter
  · exact ⟨h.total_add, fun k' j' n' h' => h.lt_iff h'⟩

/-- Two pieces of text with a comment between them, which stands for no text, and one at the end. -/
def emptyRuns : List (Run String) := [⟨"a", 2⟩, ⟨"comment", 0⟩, ⟨"b", 3⟩, ⟨"end", 0⟩]

theorem locate_traces_emptyRuns :
    (∀ run ∈ emptyRuns, 0 ≤ run.length) ∧
    (∃ j n run, Traces emptyRuns 3 j n ∧ emptyRuns[j]? = some run ∧
      locate emptyRuns 3 "$" = ⟨some run.node, n, "$"⟩ ∧
      n ≤ run.length ∧ (0 ≤ (3 : Int) → 0 ≤ n) ∧ (0 < j → 1 ≤ n)) ∧
    locate emptyRuns 6 "$" = ⟨none, 0, "$"⟩ := by
  have hlengths : ∀ run ∈ emptyRuns, 0 ≤ run.length := by decide
  exact ⟨hlengths, (locate_traces emptyRuns hlengths "$" 3).1 (by decide),
    (locate_traces emptyRuns hlengths "$" 6).2.1 (by decide)⟩

end Formulary
