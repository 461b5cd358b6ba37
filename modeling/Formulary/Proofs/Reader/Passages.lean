import Formulary.Proofs.Reader.NestedWords
import Formulary.Proofs.Reader.TakenTokens

/-! # Passages as they are read

A passage is made of letters, groups in braces and environments that are closed (`Passage`).
Reading one adds its formulas to what is open, whatever that is (`Passage.run_tokens`): the reader
pairs each group and each environment with its own end, whatever the names are.  So an environment
with a passage in it is read as one construction (`Passage.readTex_enclosed`). -/

namespace Formulary

/-! ### Passages -/

/-- An ASCII letter. -/
abbrev AsciiLetter := { c : Char // c.isAlpha = true }

/-- Letters, groups in braces and environments one after another, all of them closed. -/
inductive Passage where
  | empty
  | letter (c : AsciiLetter) (rest : Passage)
  | group (inside rest : Passage)
  | environment (name : List AsciiLetter) (inside rest : Passage)

namespace Passage

open Delimiters

/-- The spelling of a name. -/
def named (name : List AsciiLetter) : List Char := name.map Subtype.val

/-- The command that begins an environment. -/
def beginning (name : List AsciiLetter) : List Char := "\\begin".toList ++ braced (named name)

/-- The command that ends an environment. -/
def ending (name : List AsciiLetter) : List Char := "\\end".toList ++ braced (named name)

/-- A text between the ends of an environment, and these. -/
def enclosed (name : List AsciiLetter) (inside : List Char) : String :=
  String.ofList (beginning name ++ (inside ++ ending name))

/-- The characters of a passage. -/
def text : Passage → List Char
  | empty => []
  | letter c rest => c.1 :: rest.text
  | group inside rest => braced inside.text ++ rest.text
  | environment name inside rest => beginning name ++ (inside.text ++ (ending name ++ rest.text))

/-- The formulas that a passage stands for. -/
def formulas : Passage → List Formula
  | empty => []
  | letter c rest => .token "mi" (.text (String.singleton c.1)) [] none :: rest.formulas
  | group inside rest => Opener.group.built .group inside.formulas :: rest.formulas
  | environment name inside rest =>
    let value := Value.text (String.ofList (named name))
    (Opener.environment value).built (.environment value) inside.formulas :: rest.formulas

end Passage

/-! ### What is open while a text is read -/

section

variable {holder : Holder} {contents inside : List Formula} {below : Stack} {rest : List Token}
  {n : Nat}

theorem usual_kinds : Dialect.usual.kinds = FrameKinds.withBraket := rfl

/-- A construction ends the same way whatever else is said of its end. -/
theorem Stack.push_ended {opener : Opener} {ender : Ender} (hends : opener.endsWith ender = true)
    (offset : Option Int) (hsolid : ∀ f ∈ inside, f.IsSolid) {item : Frame}
    (hkind : item.kind = ender.kind) {more : Fields Value}
    (hproperties : item.properties = ender.properties ++ more) :
    Stack.push .withBraket (Holder.frame (some (opener, offset)) inside :: below) item =
      Stack.push .withBraket below (Frame.finished (opener.built ender inside)) := by
  obtain ⟨kind, properties, openedWith, nodes, place⟩ := item
  obtain rfl : kind = ender.kind := hkind
  obtain rfl : properties = ender.properties ++ more := hproperties
  have hfinish := Frame.finish_eq_close (Holder.result_endedBy hends offset hsolid)
  have hcheck : (Holder.frame (some (opener, offset)) inside).check .withBraket
      ⟨ender.kind, ender.properties ++ more, openedWith, nodes, place⟩ =
        ((Holder.frame (some (opener, offset)) inside).endedBy ender,
          ((Holder.frame (some (opener, offset)) inside).endedBy ender).finish .withBraket) := by
    cases opener <;> cases ender <;> first | rfl | exact if_pos hends
  rw [Stack.push, hcheck, hfinish]

namespace Reader

theorem pushNode_frame (f : Formula) :
    pushNode .usual ⟨holder.frame contents :: below, rest, n⟩ f =
      .ok ⟨holder.frame (contents ++ [f]) :: below, rest, n⟩ := by
  have hwrap : Dialect.usual.kinds.wrap (some f) = .ok (Frame.finished f) := rfl
  rw [pushNode, hwrap]
  dsimp only [bind, Except.bind]
  rw [usual_kinds, Stack.push_finished]
  rfl

theorem pushNew_opening (opener : Opener) (offset : Nat) :
    pushNew .usual offset ⟨holder.frame contents :: below, rest, n⟩ opener.kind.name
        opener.properties =
      .ok ⟨Holder.frame (some (opener, some (offset : Int))) [] :: holder.frame contents :: below,
        rest, n⟩ := by
  have hcreate : Dialect.usual.kinds.create opener.kind.name opener.properties =
      .ok { kind := opener.kind, properties := opener.properties, openedWith := opener.properties } := by
    cases opener <;> rfl
  have hpush := Stack.push_opening holder contents below opener (some (offset : Int))
  rw [Letter.item] at hpush
  rw [pushNew, hcreate]
  dsimp only [bind, Except.bind]
  rw [pushItem, usual_kinds]
  dsimp only [Option.getD_none]
  rw [hpush]
  rfl

theorem pushNew_ended {opener : Opener} {ender : Ender} (hends : opener.endsWith ender = true)
    (hsolid : ∀ f ∈ inside, f.IsSolid) (opened : Option Int) (offset : Nat) (more : Fields Value) :
    pushNew .usual offset
        ⟨Holder.frame (some (opener, opened)) inside :: holder.frame contents :: below, rest, n⟩
        ender.kind.name (ender.properties ++ more) =
      .ok ⟨holder.frame (contents ++ [opener.built ender inside]) :: below, rest, n⟩ := by
  have hcreate : Dialect.usual.kinds.create ender.kind.name (ender.properties ++ more) =
      .ok { kind := ender.kind, properties := ender.properties ++ more,
            openedWith := ender.properties ++ more } := by
    cases ender <;> rfl
  rw [pushNew, hcreate]
  dsimp only [bind, Except.bind]
  rw [pushItem, usual_kinds, Stack.push_ended hends opened hsolid rfl rfl, Stack.push_finished]
  rfl

end Reader

end

/-! ### Reading a passage -/

namespace Passage

open Token

/-- The tokens of a name. -/
def letters (name : List AsciiLetter) : List Token :=
  name.map fun c => ⟨.letter, String.singleton c.1, 0⟩

/-- The tokens of a passage. -/
def tokens : Passage → List Token
  | empty => []
  | letter c rest => ⟨.letter, String.singleton c.1, 0⟩ :: rest.tokens
  | group inside rest => braced inside.tokens ++ rest.tokens
  | environment name inside rest =>
    ⟨.controlWord, "\\begin", 0⟩ :: (braced (letters name) ++ (inside.tokens ++
      ⟨.controlWord, "\\end", 0⟩ :: (braced (letters name) ++ rest.tokens)))

theorem lexes_named (name : List AsciiLetter) : Lexes (named name) (letters name) := by
  induction name with
  | nil => exact .nil
  | cons c name ih => exact (Lexes.letter c.2).append ih

theorem lexes_command {c : Char} {others : List Char} (first : c.isAlpha = true)
    (hothers : ∀ d ∈ others, d.isAlpha = true) (name : List AsciiLetter) :
    Lexes ('\\' :: c :: (others ++ Delimiters.braced (named name)))
      (⟨.controlWord, String.ofList ('\\' :: c :: others), 0⟩ :: braced (letters name)) :=
  .command first hothers (.braced (lexes_named name).lexemes_eq)

theorem lexes_text (passage : Passage) : Lexes passage.text passage.tokens := by
  induction passage with
  | empty => exact .nil
  | letter c rest ih => exact (Lexes.letter c.2).append ih
  | group inside rest ihInside ihRest => exact (Lexes.braced ihInside.lexemes_eq).append ihRest
  | environment name inside rest ihInside ihRest =>
    have hegin : ∀ c ∈ "egin".toList, c.isAlpha = true := List.all_eq_true.1 (by decide)
    have hnd : ∀ c ∈ "nd".toList, c.isAlpha = true := List.all_eq_true.1 (by decide)
    have hbeginning : Lexes (beginning name) _ := lexes_command (c := 'b') rfl hegin name
    have hending : Lexes (ending name) _ := lexes_command (c := 'e') rfl hnd name
    exact hbeginning.append (ihInside.append (hending.append ihRest))

theorem formulas_isSolid (passage : Passage) : ∀ f ∈ passage.formulas, f.IsSolid := by
  induction passage with
  | empty => exact fun f hf => absurd hf List.not_mem_nil
  | letter c rest ih => exact List.forall_mem_cons.2 ⟨rfl, ih⟩
  | group inside rest _ ih => exact List.forall_mem_cons.2 ⟨Opener.built_isSolid .., ih⟩
  | environment name inside rest _ ih => exact List.forall_mem_cons.2 ⟨Opener.built_isSolid .., ih⟩

theorem spelling_letters (name : List AsciiLetter) :
    Reader.spelling (letters name) = String.ofList (named name) := by
  rw [← String.toList_inj, String.toList_ofList, Reader.spelling, String.toList_join, letters, named,
    List.map_map, List.flatMap_map]
  simp only [Function.comp_apply, String.toList_singleton]
  exact List.map_eq_flatMap.symm

theorem arePaired_letters (name : List AsciiLetter) : ArePaired (letters name) := by
  refine arePaired_of_ne fun t ht => ?_
  obtain ⟨c, -, rfl⟩ := List.mem_map.1 ht
  exact ⟨by simp, by simp⟩

theorem usual_characters : ∀ lexicon ∈ Dialect.usual.vocabulary, lexicon.category = .character →
    ∀ entry ∈ lexicon.entries, entry.1.toList.all fun c => !c.isAlpha := by
  decide

theorem meaning_letter {c : Char} (hc : c.isAlpha = true) :
    Reader.meaning Dialect.usual.vocabulary ⟨.letter, String.singleton c, 0⟩ = .ok .identifier := by
  have hnone : Dialect.usual.vocabulary.find? .character (String.singleton c) = none := by
    refine Option.eq_none_iff_forall_ne_some.2 fun action haction => ?_
    obtain ⟨lexicon, hlexicon, hcategory, hentry⟩ := Vocabulary.mem_of_find? haction
    have hnot := usual_characters lexicon hlexicon hcategory _ hentry
    simp [hc] at hnot
  rw [Reader.meaning, hnone]
  rfl

section

variable {holder : Holder} {contents : List Formula} {below : Stack} {rest : List Token} {n : Nat}

theorem step_letter (c : AsciiLetter) :
    Reader.step .usual ⟨.letter, String.singleton c.1, 0⟩
        ⟨holder.frame contents :: below, rest, n⟩ =
      .ok ⟨holder.frame (contents ++ [.token "mi" (.text (String.singleton c.1)) [] none]) :: below,
        rest, n⟩ := by
  rw [Reader.step, meaning_letter c.2]
  exact Reader.pushNode_frame _

theorem argument_name (name : List AsciiLetter) (command : String) (rest : List Token) :
    Reader.argument command (braced (letters name) ++ rest) = .ok (letters name, rest) :=
  Reader.argument_braced (arePaired_letters name) command rest

theorem step_begin (name : List AsciiLetter) :
    Reader.step .usual ⟨.controlWord, "\\begin", 0⟩
        ⟨holder.frame contents :: below, braced (letters name) ++ rest, n⟩ =
      .ok ⟨Holder.frame (some (.environment (.text (String.ofList (named name))), some 0)) [] ::
        holder.frame contents :: below, rest, n⟩ := by
  have hmeaning : Reader.meaning Dialect.usual.vocabulary ⟨.controlWord, "\\begin", 0⟩ =
      .ok .begin := rfl
  rw [Reader.step, hmeaning]
  dsimp only [bind, Except.bind, Except.mapError]
  rw [Reader.perform, argument_name]
  dsimp only [bind, Except.bind, Except.mapError]
  rw [spelling_letters]
  exact Reader.pushNew_opening (.environment _) 0

theorem step_end (name : List AsciiLetter) {inside : List Formula}
    (hsolid : ∀ f ∈ inside, f.IsSolid) (opened : Option Int) :
    let value := Value.text (String.ofList (named name))
    Reader.step .usual ⟨.controlWord, "\\end", 0⟩
        ⟨Holder.frame (some (.environment value, opened)) inside :: holder.frame contents :: below,
          braced (letters name) ++ rest, n⟩ =
      .ok ⟨holder.frame (contents ++ [(Opener.environment value).built (.environment value) inside]) ::
        below, rest, n⟩ := by
  intro value
  have hmeaning : Reader.meaning Dialect.usual.vocabulary ⟨.controlWord, "\\end", 0⟩ =
      .ok .finish := rfl
  rw [Reader.step, hmeaning]
  dsimp only [bind, Except.bind, Except.mapError]
  rw [Reader.perform, argument_name]
  dsimp only [bind, Except.bind, Except.mapError]
  rw [spelling_letters]
  exact Reader.pushNew_ended (Opener.endsWith_ender (.environment value)) hsolid opened 0 _

end

/-- A passage is read as its formulas, whatever is open. -/
theorem run_tokens (passage : Passage) (holder : Holder) (contents : List Formula) (below : Stack)
    (rest : List Token) (n : Nat) :
    Reader.run .usual ⟨holder.frame contents :: below, passage.tokens ++ rest, n⟩ =
      Reader.run .usual ⟨holder.frame (contents ++ passage.formulas) :: below, rest, n⟩ := by
  induction passage generalizing holder contents below rest with
  | empty => rw [formulas, List.append_nil, tokens, List.nil_append]
  | letter c others ih =>
    rw [tokens, List.cons_append, Reader.run_of_step (step_letter c), ih, formulas,
      List.append_assoc, List.singleton_append]
  | group inside others ihInside ihOthers =>
    have hopen : Reader.step .usual ⟨.openBrace, "\x7b", 0⟩ ⟨holder.frame contents :: below,
        inside.tokens ++ ⟨.closeBrace, "\x7d", 0⟩ :: (others.tokens ++ rest), n⟩ = _ :=
      Reader.pushNew_opening .group 0
    have hends : Opener.group.endsWith .group = true := rfl
    have hclose : Reader.step .usual ⟨.closeBrace, "\x7d", 0⟩
        ⟨Holder.frame (some (.group, some 0)) inside.formulas :: holder.frame contents :: below,
          others.tokens ++ rest, n⟩ = _ :=
      Reader.pushNew_ended hends inside.formulas_isSolid (some 0) 0 _
    have htokens : (group inside others).tokens ++ rest = ⟨.openBrace, "\x7b", 0⟩ ::
        (inside.tokens ++ ⟨.closeBrace, "\x7d", 0⟩ :: (others.tokens ++ rest)) := by
      simp [tokens, braced, Token.group]
    rw [htokens, Reader.run_of_step hopen]
    refine (ihInside (some (.group, some 0)) [] _ _).trans ?_
    rw [List.nil_append, Reader.run_of_step hclose, ihOthers, formulas, List.append_assoc,
      List.singleton_append]
  | environment name inside others ihInside ihOthers =>
    have htokens : (environment name inside others).tokens ++ rest =
        ⟨.controlWord, "\\begin", 0⟩ :: (braced (letters name) ++ (inside.tokens ++
          ⟨.controlWord, "\\end", 0⟩ :: (braced (letters name) ++ (others.tokens ++ rest)))) := by
      simp [tokens]
    rw [htokens, Reader.run_of_step (step_begin name), ihInside, List.nil_append,
      Reader.run_of_step (step_end name inside.formulas_isSolid (some 0)), ihOthers, formulas,
      List.append_assoc, List.singleton_append]

/-- A text of which nothing is open is read as what is in it. -/
theorem answer_whole {contents : List Formula} (hsolid : ∀ f ∈ contents, f.IsSolid) (text : String)
    (n : Nat) :
    Reader.answer .usual text ⟨[Holder.frame none contents], [], n⟩ =
      .ok (some (Formula.whole contents)) := by
  have hrun : Reader.run .usual ⟨[Holder.frame none contents], [], n⟩ = .ok _ := Reader.run.eq_1 ..
  rw [Reader.answer, hrun]
  dsimp only [bind, Except.bind]
  rw [Reader.close_eq (.inr rfl), usual_kinds, Stack.push_endOfText_none _ hsolid]
  rfl

/-- The reader takes an environment for what its ends enclose. -/
theorem readTex_enclosed (name : List AsciiLetter) (body : Passage) (limit : Int) :
    let value := Value.text (String.ofList (named name))
    readTex .usual limit (enclosed name body.text) =
      .ok (some ((Opener.environment value).built (.environment value) body.formulas)) := by
  intro value
  have hlexes := lexes_text (.environment name body .empty)
  rw [text, text, List.append_nil] at hlexes
  have hlexemes : lexemes (enclosed name body.text).toList =
      .ok ((environment name body empty).tokens.map lexeme) := by
    rw [enclosed, String.toList_ofList]
    exact hlexes.lexemes_eq
  have hstack : Stack.initial Dialect.usual.kinds = .ok [Holder.frame none []] := rfl
  have hagrees := readTex_answer hstack hlexemes limit
  have hrun := run_tokens (.environment name body .empty) none [] [] [] limit.toNat
  have hanswer := answer_whole (environment name body empty).formulas_isSolid
    (enclosed name body.text) limit.toNat
  rw [List.append_nil, List.nil_append] at hrun
  rw [Reader.answer] at hagrees hanswer
  rw [hrun, hanswer] at hagrees
  exact hagrees.eq_ok

end Passage

end Formulary
