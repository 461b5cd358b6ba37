import Formulary.Proofs.Reader.StackSoundness

/-! # How reading ends

A dialect that packages and templates make up is sound (`Dialect.isSound_of_packages`), whatever
the templates say, so reading a text in it ends in one of two ways (`readTex_ends`): with no token
left and the formula alone on the stack, or with an error of TeX. -/

namespace Formulary

/-- The meaning is a template: a text, and how many arguments it takes, if that is said. -/
def Action.IsTemplate (action : Action) : Prop :=
  ∃ (text : String) (arity : Option Int), action = .template (.text text) (arity.map .integer)

/-- Every meaning in the lexicon is a template. -/
def Lexicon.IsOfTemplates (lexicon : Lexicon) : Prop :=
  ∀ entry ∈ lexicon.entries, entry.2.IsTemplate

theorem Action.IsTemplate.isSound {action : Action} (h : action.IsTemplate) : action.IsSound := by
  obtain ⟨text, arity, rfl⟩ := h
  cases arity <;> exact ⟨rfl, rfl⟩

namespace Dialect

variable {d d' : Dialect}

/-- The dialect with further lexicons, of which a later one goes before an earlier one. -/
def addLexicons (d : Dialect) (lexicons : List Lexicon) : Dialect := lexicons.foldl addLexicon d

theorem addPackages_keeps {P : Dialect → Prop} (hbraket : ∀ d, P d → P d.addBraket)
    {names : List String} (hnames : d.addPackages names = .ok d') (h : P d) : P d' := by
  induction names generalizing d with
  | nil =>
    cases hnames
    exact h
  | cons name rest ih =>
    rw [Dialect.addPackages] at hnames
    split at hnames
    · cases hnames
    · rename_i add hadd
      rw [package?] at hadd
      split at hadd
      · cases hadd
        exact ih hnames (hbraket d h)
      · cases hadd

theorem addLexicons_keeps {P : Dialect → Prop} {lexicons : List Lexicon}
    (hadd : ∀ lexicon ∈ lexicons, ∀ d, P d → P (d.addLexicon lexicon)) (h : P d) :
    P (d.addLexicons lexicons) := by
  induction lexicons generalizing d with
  | nil => exact h
  | cons lexicon rest ih =>
    obtain ⟨hfirst, hrest⟩ := List.forall_mem_cons.1 hadd
    exact ih hrest (hfirst d h)

/-- The lexicons that packages bring along. -/
def known : Vocabulary :=
  Vocabulary.braketCharacters :: Vocabulary.braketCommands :: Vocabulary.base

/-- What holds of all meanings in the known lexicons and in some more holds of all that these and
packages make up. -/
theorem forall_of_packages {P : Action → Prop}
    (hknown : ∀ lexicon ∈ known, ∀ entry ∈ lexicon.entries, P entry.2) {names : List String}
    (hnames : ofPackages names = .ok d) {lexicons : List Lexicon}
    (hl : ∀ lexicon ∈ lexicons, ∀ entry ∈ lexicon.entries, P entry.2) :
    ∀ lexicon ∈ (d.addLexicons lexicons).vocabulary, ∀ entry ∈ lexicon.entries, P entry.2 := by
  obtain ⟨hcharacters, hrest⟩ := List.forall_mem_cons.1 hknown
  obtain ⟨hcommands, hbase⟩ := List.forall_mem_cons.1 hrest
  have hd : ∀ lexicon ∈ d.vocabulary, ∀ entry ∈ lexicon.entries, P entry.2 := by
    refine addPackages_keeps
      (P := fun d => ∀ lexicon ∈ d.vocabulary, ∀ entry ∈ lexicon.entries, P entry.2)
      (fun d hd => ?_) hnames hbase
    exact List.forall_mem_cons.2 ⟨hcharacters, List.forall_mem_cons.2 ⟨hcommands, hd⟩⟩
  refine addLexicons_keeps
    (P := fun d => ∀ lexicon ∈ d.vocabulary, ∀ entry ∈ lexicon.entries, P entry.2)
    (fun lexicon hlexicon d hd => ?_) hd
  exact List.forall_mem_cons.2 ⟨hl lexicon hlexicon, hd⟩

/-- Packages and templates make up a sound dialect. -/
theorem isSound_of_packages {names : List String} (hnames : ofPackages names = .ok d)
    {lexicons : List Lexicon} (hl : ∀ lexicon ∈ lexicons, lexicon.IsOfTemplates) :
    (d.addLexicons lexicons).IsSound := by
  have hd : d.IsSound := addPackages_keeps (fun _ => IsSound.addBraket) hnames base_isSound
  refine addLexicons_keeps (fun lexicon hlexicon d hd => ?_) hd
  exact hd.addLexicon fun entry hentry => (hl lexicon hlexicon entry hentry).isSound

end Dialect

/-- Reading a text with some packages and templates gives a formula or an error of TeX.  If it gives
a formula, all tokens are consumed and the formula is all that is left on the stack. -/
theorem readTex_ends {names : List String} {d : Dialect}
    (hnames : Dialect.ofPackages names = .ok d) {lexicons : List Lexicon}
    (hl : ∀ lexicon ∈ lexicons, lexicon.IsOfTemplates) (limit : Int) (text : String) :
    (∃ f, readTex (d.addLexicons lexicons) limit text = .ok (some f) ∧
      Reader.Finishes (d.addLexicons lexicons) limit text f) ∨
    ∃ e, readTex (d.addLexicons lexicons) limit text = .error (.tex e) := by
  have h := readTex_finishes (Dialect.isSound_of_packages hnames hl) limit text
  match hread : readTex (d.addLexicons lexicons) limit text with
  | .error (.tex e) => exact .inr ⟨e, rfl⟩
  | .error (.fault fault) =>
    rw [hread] at h
    exact h.elim
  | .ok found =>
    rw [hread] at h
    obtain ⟨f, rfl, hfinishes⟩ := h
    exact .inl ⟨f, rfl, hfinishes⟩

/-- Templates that come back to themselves, leave a brace open, or are no tokens. -/
def Lexicon.wild : Lexicon where
  category := .command
  entries := [
    ("again", .template "\\again #1#1" (some (.integer 1))),
    ("gap", .template "\x7b#3" (some (.integer (-1)))),
    ("lone", .template "\\" none)]

theorem readTex_ends_wild :
    Dialect.ofPackages ["braket"] = .ok .usual ∧
    (∀ lexicon ∈ [Lexicon.wild], lexicon.IsOfTemplates) ∧
    let d := Dialect.usual.addLexicons [.wild]
    (∃ f, readTex d 2 "\\set\x7b\\again x|\\gap\\lone" = .ok (some f) ∧
      Reader.Finishes d 2 "\\set\x7b\\again x|\\gap\\lone" f) ∨
    ∃ e, readTex d 2 "\\set\x7b\\again x|\\gap\\lone" = .error (.tex e) := by
  have hl : ∀ lexicon ∈ [Lexicon.wild], lexicon.IsOfTemplates := by
    intro lexicon hlexicon entry hentry
    rw [List.mem_singleton.1 hlexicon] at hentry
    simp only [Lexicon.wild, List.mem_cons, List.not_mem_nil, or_false] at hentry
    rcases hentry with rfl | rfl | rfl
    · exact ⟨_, some 1, rfl⟩
    · exact ⟨_, some (-1), rfl⟩
    · exact ⟨_, none, rfl⟩
  have hnames : Dialect.ofPackages ["braket"] = .ok _ := rfl
  exact ⟨rfl, hl, readTex_ends hnames hl 2 _⟩

end Formulary
