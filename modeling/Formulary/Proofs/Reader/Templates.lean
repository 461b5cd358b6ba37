import Formulary.Proofs.Reader.TakenTokens

/-! # Templates as texts

A template stands for the text that it becomes when the arguments are written in place of its
parameters, all at once (`fill`).  Its expansion has the lexemes of that text: each parameter stands
in braces, so the lexemes of an argument neither run into those around it nor fall apart
(`TemplateText.substitute_text`).

So a command that is a template is read as the text that it stands for, also where what follows or
the arguments themselves have commands, bars and errors in them, as long as the limit on expansions
is not reached (`readTex_template`). -/

namespace Formulary

/-! ### Texts with parameters -/

/-- The text with `#1`, `#2` and so on replaced by what is given for them. -/
def fillFrom (given : List (List Char)) : List Char → List Char
  | [] => []
  | '#' :: d :: rest =>
    match if isParameterDigit d then given[d.toNat - '1'.toNat]? else none with
    | some text => text ++ fillFrom given rest
    | none => '#' :: fillFrom given (d :: rest)
  | c :: rest => c :: fillFrom given rest

/-- The text with `#1`, `#2` and so on replaced by what is given for them, all at once. -/
def fill (given : List String) (text : String) : String :=
  String.ofList (fillFrom (given.map String.toList) text.toList)

/-- A command with arguments in braces. -/
def call (name : String) (given : List String) : String :=
  "\\" ++ name ++ String.join (given.map fun x => "\x7b" ++ x ++ "\x7d")

/-- A text in which parameters stand in braces. -/
inductive TemplateText where
  | plain (text : List Char)
  | parameter (before : List Char) (i : Nat) (rest : TemplateText)

namespace TemplateText

open Delimiters Token

/-- The parameter with a number, counted from zero. -/
def digit (i : Nat) : Char := Char.ofNat ('1'.toNat + i)

def text : TemplateText → List Char
  | plain text => text
  | parameter before i rest => before ++ (Delimiters.braced ['#', digit i] ++ rest.text)

/-- The text with the parameters replaced. -/
def filled (given : List (List Char)) : TemplateText → List Char
  | plain text => text
  | parameter before i rest =>
    before ++ (Delimiters.braced (given[i]?.getD []) ++ rest.filled given)

/-- The characters have lexemes, none of which is a parameter. -/
def isPlain (text : List Char) : Bool :=
  '#' ∉ text &&
    match lexemes text with
    | .ok found => found.all fun lexeme => lexeme.1 ≠ .parameter
    | .error _ => false

/-- Between the parameters the text is plain, and there are no more than `n` of them. -/
def isSound (n : Nat) : TemplateText → Bool
  | plain text => isPlain text
  | parameter before i rest => isPlain before && i < n && i < 9 && rest.isSound n

variable {n : Nat} {given : List (List Char)} {args : List (List Token)}

theorem isPlain_iff {text : List Char} : isPlain text = true ↔
    '#' ∉ text ∧ ∃ found, lexemes text = .ok found ∧ ∀ lexeme ∈ found, lexeme.1 ≠ .parameter := by
  rw [isPlain, Bool.and_eq_true, decide_eq_true_eq]
  refine and_congr_right fun _ => ?_
  cases lexemes text with
  | error cause => simp
  | ok found => simp

/-! ### Filling in -/

theorem isParameterDigit_digit : ∀ i < 9, isParameterDigit (digit i) = true := by decide

theorem toNat_digit : ∀ i < 9, (digit i).toNat - '1'.toNat = i := by decide

theorem fillFrom_cons {c : Char} (hc : c ≠ '#') (rest : List Char) :
    fillFrom given (c :: rest) = c :: fillFrom given rest :=
  fillFrom.eq_3 given c rest fun _ _ heq => absurd heq hc

theorem fillFrom_append {before : List Char} (h : '#' ∉ before) (rest : List Char) :
    fillFrom given (before ++ rest) = before ++ fillFrom given rest := by
  induction before with
  | nil => rfl
  | cons c before ih =>
    have hc : c ≠ '#' := fun heq => h (heq ▸ List.mem_cons_self ..)
    rw [List.cons_append, fillFrom_cons hc, ih fun hmem => h (List.mem_cons_of_mem _ hmem),
      List.cons_append]

theorem fillFrom_parameter {i : Nat} (hi : i < 9) (hgiven : i < given.length) (rest : List Char) :
    fillFrom given ('#' :: digit i :: rest) = given[i] ++ fillFrom given rest := by
  rw [fillFrom, if_pos (isParameterDigit_digit i hi), toNat_digit i hi, List.getElem?_eq_getElem hgiven]

/-- Filling in replaces the parameters and nothing else. -/
theorem fillFrom_text (template : TemplateText) (h : template.isSound given.length = true) :
    fillFrom given template.text = template.filled given := by
  induction template with
  | plain text =>
    have hfill : fillFrom given (text ++ []) = text ++ fillFrom given [] :=
      fillFrom_append (isPlain_iff.1 h).1 []
    rwa [List.append_nil, fillFrom, List.append_nil] at hfill
  | parameter before i rest ih =>
    simp only [isSound, Bool.and_eq_true, decide_eq_true_eq] at h
    obtain ⟨⟨⟨hbefore, hgiven⟩, hi⟩, hrest⟩ := h
    have hspelled : Delimiters.braced ['#', digit i] ++ rest.text =
        '\x7b' :: '#' :: digit i :: '\x7d' :: rest.text := rfl
    rw [text, fillFrom_append (isPlain_iff.1 hbefore).1, hspelled, fillFrom_cons (by decide),
      fillFrom_parameter hi hgiven, fillFrom_cons (by decide), ih hrest, filled,
      List.getElem?_eq_getElem hgiven, Option.getD_some]
    simp [Delimiters.braced]

/-! ### Expanding -/

/-- Tokens that are no parameters are put down where the command stands. -/
theorem substitute_append (args : List (List Token)) (command : Token) {before : List Token}
    (h : ∀ t ∈ before, t.kind ≠ .parameter) (rest : List Token) :
    Reader.substitute command args (before ++ rest) = (Reader.substitute command args rest).map
      (before.map (fun t => { t with start := command.start }) ++ ·) := by
  induction before with
  | nil =>
    rw [List.nil_append]
    cases Reader.substitute command args rest <;> rfl
  | cons t before ih =>
    rw [List.cons_append, Reader.substitute, if_neg (h t (List.mem_cons_self ..)),
      ih fun u hu => h u (List.mem_cons_of_mem _ hu)]
    cases Reader.substitute command args rest <;> rfl

theorem substitute_parameter (command : Token) {i : Nat} (hi : i < 9) (hargs : i < args.length)
    {t : Token} (ht : t.lexeme = (.parameter, String.ofList ['#', digit i])) (rest : List Token) :
    Reader.substitute command args (t :: rest) =
      (Reader.substitute command args rest).map (args[i] ++ ·) := by
  obtain ⟨hkind, htext⟩ := Prod.mk.inj ht
  have hindex : Reader.parameterIndex t = i := by
    rw [Reader.parameterIndex, htext, String.toList_ofList]
    exact toNat_digit i hi
  rw [Reader.substitute, if_pos hkind, hindex, List.getElem?_eq_getElem hargs]
  cases Reader.substitute command args rest <;> rfl

theorem lexemes_parameter {i : Nat} (hi : i < 9) :
    lexemes ['#', digit i] = .ok [(.parameter, String.ofList ['#', digit i])] := by
  have hends : TokenKind.parameter.EndsBefore ['#', digit i] [] := trivial
  have hlexeme := lexeme?_of_spells (.parameter (isParameterDigit_digit i hi)) hends
  rw [List.append_nil] at hlexeme
  have hlexemes := lexemes_cons (c := '#') rfl hlexeme
  rw [List.length_singleton, List.drop_succ_cons, List.drop_zero, lexemes_nil] at hlexemes
  exact hlexemes

/-- A parameter in braces becomes its argument in braces. -/
theorem substitute_around (command : Token) {first behind expansion : List Token}
    {opening closing t : Token} (hfirst : ∀ u ∈ first, u.kind ≠ .parameter)
    (hopening : opening.kind ≠ .parameter) (hclosing : closing.kind ≠ .parameter) {i : Nat}
    (hi : i < 9) (hargs : i < args.length)
    (ht : t.lexeme = (.parameter, String.ofList ['#', digit i]))
    (h : Reader.substitute command args behind = .ok expansion) :
    ∃ whole, Reader.substitute command args (first ++ opening :: t :: closing :: behind) = .ok whole ∧
      whole.map lexeme = first.map lexeme ++
        opening.lexeme :: (args[i].map lexeme ++ closing.lexeme :: expansion.map lexeme) := by
  have hopens : ∀ u ∈ first ++ [opening], u.kind ≠ .parameter := by
    simpa [or_imp, forall_and] using ⟨hfirst, hopening⟩
  have hcloses : ∀ u ∈ [closing], u.kind ≠ .parameter := by simpa using hclosing
  have hbehind := substitute_append args command hcloses behind
  have hwhole := substitute_append args command hopens (t :: ([closing] ++ behind))
  rw [substitute_parameter command hi hargs ht, hbehind, h, List.append_assoc] at hwhole
  refine ⟨_, hwhole, ?_⟩
  simp [lexeme]

theorem lexemes_around {before part after : List Char} {found behind : List (TokenKind × String)}
    {inside : List Token} (hbefore : lexemes before = .ok found)
    (hpart : lexemes part = .ok (inside.map lexeme)) (hafter : lexemes after = .ok behind) :
    lexemes (before ++ (Delimiters.braced part ++ after)) =
      .ok (found ++ ((Token.braced inside).map lexeme ++ behind)) := by
  have hgroup := Lexes.braced hpart after
  have hbrace := lexemes_append hbefore (interrupts_openBrace (part ++ ['\x7d'] ++ after))
  rw [Delimiters.braced, List.cons_append] at hgroup ⊢
  rw [hbrace, hgroup, hafter]
  rfl

/-- The arguments have the lexemes of the texts. -/
abbrev Given (given : List (List Char)) (args : List (List Token)) : Prop :=
  List.Forall₂ (fun x tokens => lexemes x = .ok (tokens.map lexeme)) given args

/-- The expansion of a template has the lexemes of the text that it becomes. -/
theorem substitute_text (hgiven : Given given args) (command : Token) (template : TemplateText)
    (h : template.isSound given.length = true) :
    ∃ found, lexemes template.text = .ok found ∧ ∀ tokens, tokens.map lexeme = found →
      ∃ expansion, Reader.substitute command args tokens = .ok expansion ∧
        lexemes (template.filled given) = .ok (expansion.map lexeme) := by
  have hkinds : ∀ {found : List (TokenKind × String)} {tokens : List Token},
      (∀ lexeme ∈ found, lexeme.1 ≠ .parameter) → tokens.map lexeme = found →
        ∀ t ∈ tokens, t.kind ≠ .parameter := by
    rintro found tokens hfound rfl t ht
    exact hfound _ (List.mem_map_of_mem ht)
  induction template with
  | plain text =>
    obtain ⟨-, found, hlexemes, hfound⟩ := isPlain_iff.1 h
    refine ⟨found, hlexemes, fun tokens htokens => ?_⟩
    have hsubstitute := substitute_append args command (hkinds hfound htokens) []
    rw [List.append_nil, Reader.substitute, Except.map, List.append_nil] at hsubstitute
    refine ⟨_, hsubstitute, ?_⟩
    rw [List.map_map, filled, hlexemes, ← htokens]
    rfl
  | parameter before i rest ih =>
    simp only [isSound, Bool.and_eq_true, decide_eq_true_eq] at h
    obtain ⟨⟨⟨hbefore, hi⟩, hdigit⟩, hrest⟩ := h
    obtain ⟨-, found, hlexemes, hfound⟩ := isPlain_iff.1 hbefore
    obtain ⟨others, hothers, hexpands⟩ := ih hrest
    have hargs : i < args.length := hgiven.length_eq ▸ hi
    have hargument : lexemes given[i] = .ok (args[i].map lexeme) :=
      List.Forall₂.get hgiven hi hargs
    have hparameter : lexemes ['#', digit i] =
        .ok ([⟨.parameter, String.ofList ['#', digit i], 0⟩].map lexeme) := lexemes_parameter hdigit
    refine ⟨_, lexemes_around hlexemes hparameter hothers, fun tokens htokens => ?_⟩
    obtain ⟨first, behind, rfl, hfirst, hbehind⟩ := List.map_eq_append_iff.1 htokens
    obtain ⟨opening, behind, rfl, hopening, hbehind⟩ := List.map_eq_cons_iff.1 hbehind
    obtain ⟨t, behind, rfl, ht, hbehind⟩ := List.map_eq_cons_iff.1 hbehind
    obtain ⟨closing, behind, rfl, hclosing, hbehind⟩ := List.map_eq_cons_iff.1 hbehind
    obtain ⟨expansion, hexpansion, hfilled⟩ := hexpands behind hbehind
    obtain ⟨whole, hwhole, hmap⟩ := substitute_around command (hkinds hfound hfirst)
      (by rw [(Prod.mk.inj hopening).1]; decide) (by rw [(Prod.mk.inj hclosing).1]; decide) hdigit
      hargs ht hexpansion
    refine ⟨whole, hwhole, ?_⟩
    rw [filled, List.getElem?_eq_getElem hi, Option.getD_some,
      lexemes_around hlexemes hargument hfilled, hmap, hfirst, hopening, hclosing]
    simp [Token.braced, group]

end TemplateText

/-! ### Reading a command that is a template -/

namespace Reader

open Token

variable {stack : Stack} {given : List (List Token)} {rest : List Token} {command : Token}
  {template expansion : List Token} {text : String}

/-- The arguments of a template are taken from groups in a row. -/
theorem expand_groups (hpaired : ∀ inside ∈ given, ArePaired inside)
    (htemplate : tokenize text = .ok template)
    (hexpansion : substitute command given template = .ok expansion) (n : Nat) :
    expand command (.text text) given.length ⟨stack, given.flatMap braced ++ rest, n⟩ =
      match n with
      | 0 => .error (.ofCause .tooManyExpansions)
      | n + 1 => .ok ⟨stack, expansion ++ rest, n⟩ := by
  rw [expand, arguments_braced hpaired]
  cases n with
  | zero => rfl
  | succ n =>
    dsimp only [bind, Except.bind, Except.mapError]
    rw [templateTokens, htemplate]
    dsimp only [Except.mapError]
    rw [hexpansion]
    rfl

/-- A template is read as its expansion, unless the limit on expansions is reached. -/
theorem answer_template {d : Dialect} (hmeaning : meaning d.vocabulary command =
      .ok (.template (.text text) (some (.integer given.length))))
    (hpaired : ∀ inside ∈ given, ArePaired inside) (htemplate : tokenize text = .ok template)
    (hexpansion : substitute command given template = .ok expansion) (n : Nat)
    (called filled : String)
    (hspares : Spares (answer d called ⟨stack, command :: (given.flatMap braced ++ rest), n⟩)) :
    Agrees Failure.Alike Eq
      (answer d called ⟨stack, command :: (given.flatMap braced ++ rest), n⟩)
      (answer d filled ⟨stack, expansion ++ rest, n⟩) := by
  have hstep : step d command ⟨stack, given.flatMap braced ++ rest, n⟩ =
      expand command (.text text) given.length ⟨stack, given.flatMap braced ++ rest, n⟩ := by
    rw [step, hmeaning]
    rfl
  rw [expand_groups hpaired htemplate hexpansion] at hstep
  cases n with
  | zero =>
    rw [answer, run_cons, hstep] at hspares
    exact absurd rfl (hspares (some command.start))
  | succ n =>
    have hcalled : answer d called ⟨stack, command :: (given.flatMap braced ++ rest), n + 1⟩ =
        answer d called ⟨stack, expansion ++ rest, n⟩ := by
      rw [answer, run_of_step hstep, answer]
    have halike : Alike ⟨stack, expansion ++ rest, n⟩ ⟨stack, expansion ++ rest, n⟩ :=
      ⟨List.forall₂_same.2 fun _ _ => .refl _, List.forall₂_same.2 fun t _ => ⟨t.start, rfl⟩, rfl⟩
    have hagrees := answer_agrees (d := d) halike called filled
    rw [hcalled] at hspares ⊢
    -- the text that is filled in has one expansion more left, and does not need it
    have hmore := answer_more (hagrees.spares hspares) 1
    rw [more] at hmore
    rwa [hmore]

end Reader

/-- The template is what a command of the usual dialect means. -/
structure TemplateText.IsOf (template : TemplateText) (name text : String) (n : Nat) : Prop where
  text_eq : template.text = text.toList
  sound : template.isSound n = true
  named : name.toList ≠ [] ∧ name.toList.all Char.isAlpha = true
  takes : 0 < n
  meaning : Reader.meaning Dialect.usual.vocabulary ⟨.controlWord, "\\" ++ name, 0⟩ =
    .ok (.template (.text text) (some (.integer n)))

theorem exists_templateText {name text : String} {n : Nat}
    (h : (name, .template (.text text) (some (.integer n))) ∈ Vocabulary.braketCommands.entries) :
    ∃ template : TemplateText, template.IsOf name text n := by
  simp only [Vocabulary.braketCommands, List.mem_cons, List.not_mem_nil, or_false, Prod.mk.injEq,
    Action.template.injEq, Value.text.injEq, Option.some.injEq, Value.integer.injEq, reduceCtorEq,
    and_false, false_or] at h
  have hone {n : Nat} (h : (n : Int) = 1) : n = 1 := by omega
  have htwo {n : Nat} (h : (n : Int) = 2) : n = 2 := by omega
  rcases h with ⟨rfl, rfl, hn⟩ | ⟨rfl, rfl, hn⟩ | ⟨rfl, rfl, hn⟩ | ⟨rfl, rfl, hn⟩ | ⟨rfl, rfl, hn⟩ |
    ⟨rfl, rfl, hn⟩
  · obtain rfl := hone hn
    exact ⟨.parameter "\x7b\\langle ".toList 0 (.plain " \\vert\x7d".toList), by decide,
      by decide +kernel, by decide, by decide, rfl⟩
  · obtain rfl := hone hn
    exact ⟨.parameter "\x7b\\vert ".toList 0 (.plain " \\rangle\x7d".toList), by decide,
      by decide +kernel, by decide, by decide, rfl⟩
  · obtain rfl := hone hn
    exact ⟨.parameter "\\left\\langle ".toList 0 (.plain " \\right\\vert".toList), by decide,
      by decide +kernel, by decide, by decide, rfl⟩
  · obtain rfl := hone hn
    exact ⟨.parameter "\\left\\vert ".toList 0 (.plain " \\right\\rangle".toList), by decide,
      by decide +kernel, by decide, by decide, rfl⟩
  · obtain rfl := htwo hn
    exact ⟨.parameter "\x7b\\vert ".toList 0
      (.parameter " \\rangle\\langle ".toList 1 (.plain " \\vert\x7d".toList)), by decide,
      by decide +kernel, by decide, by decide, rfl⟩
  · obtain rfl := htwo hn
    exact ⟨.parameter "\\left\\vert ".toList 0 (.parameter " \\right\\rangle\\left\\langle ".toList 1
      (.plain " \\right\\vert".toList)), by decide, by decide +kernel, by decide, by decide, rfl⟩

namespace TemplateText

open Token

theorem lexes_groups {given : List (List Char)} {args : List (List Token)}
    (hgiven : Given given args) :
    Lexes (given.flatMap Delimiters.braced) (args.flatMap Token.braced) := by
  induction hgiven with
  | nil => exact .nil
  | cons h _ ih => exact (Lexes.braced h).append ih

theorem toList_call (name : String) (given : List String) :
    (call name given).toList =
      '\\' :: (name.toList ++ (given.map String.toList).flatMap Delimiters.braced) := by
  have hgroup : ∀ x : String, ("\x7b" ++ x ++ "\x7d").toList = Delimiters.braced x.toList := by
    simp [Delimiters.braced]
  simp only [call, String.toList_append, String.toList_join, List.flatMap_map, hgroup]
  rfl

theorem lexes_call {name : String} (hname : name.toList ≠ [] ∧ name.toList.all Char.isAlpha = true)
    {given : List String} {args : List (List Token)} (hgiven : Given (given.map String.toList) args)
    (hne : given ≠ []) :
    Lexes (call name given).toList
      (⟨.controlWord, "\\" ++ name, 0⟩ :: args.flatMap Token.braced) := by
  obtain ⟨hname, halpha⟩ := hname
  obtain ⟨c, letters, hletters⟩ := List.exists_cons_of_ne_nil hname
  obtain ⟨x, others, rfl⟩ := List.exists_cons_of_ne_nil hne
  have hspelled : "\\" ++ name = String.ofList ('\\' :: c :: letters) := by
    rw [← String.toList_inj, String.toList_append, hletters]
    exact String.toList_ofList.symm
  rw [hletters, List.all_eq_true, List.forall_mem_cons] at halpha
  rw [toList_call, hspelled, hletters]
  exact .command halpha.1 halpha.2 (lexes_groups hgiven)

end TemplateText

theorem exists_args {given : List String}
    (h : ∀ x ∈ given, ∃ tokens, tokenize x = .ok tokens ∧ Token.ArePaired tokens) :
    ∃ args, TemplateText.Given (given.map String.toList) args ∧
      ∀ inside ∈ args, Token.ArePaired inside := by
  induction given with
  | nil => exact ⟨[], .nil, List.forall_mem_nil _⟩
  | cons x given ih =>
    obtain ⟨⟨tokens, htokens, hpaired⟩, hothers⟩ := List.forall_mem_cons.1 h
    obtain ⟨args, hgiven, hargs⟩ := ih hothers
    exact ⟨tokens :: args, .cons (Token.lexemes_of_tokenize htokens) hgiven,
      List.forall_mem_cons.2 ⟨hpaired, hargs⟩⟩

/-- A command that is a template is read as the text that the template becomes when the arguments
are written in place of its parameters, whatever follows: both stand for one formula, or reading
both fails for one cause, unless the limit on expansions is reached. -/
theorem readTex_template {name text : String} {n : Nat}
    (hentry : (name, .template (.text text) (some (.integer n))) ∈
      Vocabulary.braketCommands.entries)
    {given : List String} (hlength : given.length = n)
    (hpaired : ∀ x ∈ given, ∃ tokens, tokenize x = .ok tokens ∧ Token.ArePaired tokens)
    (rest : String) (limit : Int)
    (hlimit : ∀ offset, readTex .usual limit (call name given ++ " " ++ rest) ≠
      .error (.tex ⟨.tooManyExpansions, offset⟩)) :
    (∃ f, readTex .usual limit (call name given ++ " " ++ rest) = .ok (some f) ∧
      readTex .usual limit (fill given text ++ " " ++ rest) = .ok (some f)) ∨
    ∃ cause offset offset',
      readTex .usual limit (call name given ++ " " ++ rest) = .error (.tex ⟨cause, offset⟩) ∧
      readTex .usual limit (fill given text ++ " " ++ rest) = .error (.tex ⟨cause, offset'⟩) := by
  obtain ⟨template, hof⟩ := exists_templateText hentry
  obtain ⟨args, hgiven, hargs⟩ := exists_args hpaired
  have hargsLength : args.length = n := by
    rw [← hgiven.length_eq, List.length_map, hlength]
  have hsound : template.isSound (given.map String.toList).length = true := by
    rw [List.length_map, hlength, hof.sound]
  obtain ⟨found, hfound, hexpands⟩ :=
    TemplateText.substitute_text hgiven ⟨.controlWord, "\\" ++ name, 0⟩ template hsound
  rw [hof.text_eq] at hfound
  obtain ⟨tokens, htokens, hmap⟩ := Token.exists_tokenize hfound
  obtain ⟨expansion, hexpansion, hfilled⟩ := hexpands tokens hmap
  have hne : given ≠ [] := by
    rintro rfl
    exact absurd hlength (Nat.ne_of_lt hof.takes)
  have hcall := Token.lexemes_spaced (TemplateText.lexes_call hof.named hgiven hne).lexemes_eq rest
  have hfill : Token.lexemes (fill given text).toList = .ok (expansion.map Token.lexeme) := by
    rw [fill, String.toList_ofList, ← hof.text_eq, TemplateText.fillFrom_text template hsound, hfilled]
  have hfill := Token.lexemes_spaced hfill rest
  cases hrest : Token.lexemes rest.toList with
  | error cause =>
    rw [hrest] at hcall hfill
    obtain ⟨offset, hcalled⟩ := readTex_of_lexemes_error (d := .usual) hcall limit
    obtain ⟨offset', hread⟩ := readTex_of_lexemes_error (d := .usual) hfill limit
    exact .inr ⟨cause, offset, offset', hcalled, hread⟩
  | ok behind =>
    obtain ⟨others, hothers⟩ : ∃ others : List Token, others.map Token.lexeme = behind :=
      ⟨behind.map fun l => ⟨l.1, l.2, 0⟩, by rw [List.map_map]; exact List.map_id _⟩
    rw [hrest, ← hothers, Except.map, ← List.map_append] at hcall hfill
    have hstack : Stack.initial Dialect.usual.kinds = .ok [{ kind := FrameKinds.startKind }] := rfl
    have hcalled := readTex_answer hstack hcall limit
    have hread := readTex_answer hstack hfill limit
    have hmeaning := hof.meaning
    rw [← hargsLength] at hmeaning
    have hexpanded := Reader.answer_template hmeaning hargs htokens hexpansion limit.toNat
      (call name given ++ " " ++ rest) (fill given text ++ " " ++ rest) (hcalled.spares hlimit)
    exact ((hcalled.trans hexpanded).trans hread.symm).same_formula_or_cause
      (readTex_yields Dialect.usual_isSound limit _)

/-- A template and a set with a bar as the arguments, and an error behind them. -/
theorem readTex_template_ketbra :
    let text := "\x7b\\vert \x7b#1\x7d \\rangle\\langle \x7b#2\x7d \\vert\x7d"
    let given := ["\\bra\x7ba\x7d|", "\\set\x7bb|c\x7d"]
    let called := call "ketbra" given ++ " " ++ "\\right)"
    let filled := fill given text ++ " " ++ "\\right)"
    ("ketbra", .template (.text text) (some (.integer (2 : Nat)))) ∈
      Vocabulary.braketCommands.entries ∧
    (∀ x ∈ given, ∃ tokens, tokenize x = .ok tokens ∧ Token.ArePaired tokens) ∧
    (∀ offset, readTex .usual 2 called ≠ .error (.tex ⟨.tooManyExpansions, offset⟩)) ∧
    ((∃ f, readTex .usual 2 called = .ok (some f) ∧ readTex .usual 2 filled = .ok (some f)) ∨
      ∃ cause offset offset', readTex .usual 2 called = .error (.tex ⟨cause, offset⟩) ∧
        readTex .usual 2 filled = .error (.tex ⟨cause, offset'⟩)) := by
  intro text given called filled
  have hentry : ("ketbra", .template (.text text) (some (.integer (2 : Nat)))) ∈
      Vocabulary.braketCommands.entries := by
    simp [Vocabulary.braketCommands, text]
  have hpaired : ∀ x ∈ given, ∃ tokens, tokenize x = .ok tokens ∧ Token.ArePaired tokens := by
    have hbra : tokenize "\\bra\x7ba\x7d|" = .ok [⟨.controlWord, "\\bra", 0⟩, ⟨.openBrace, "\x7b", 4⟩,
        ⟨.letter, "a", 5⟩, ⟨.closeBrace, "\x7d", 6⟩, ⟨.other, "|", 7⟩] := by
      decide +kernel
    have hset : tokenize "\\set\x7bb|c\x7d" = .ok [⟨.controlWord, "\\set", 0⟩, ⟨.openBrace, "\x7b", 4⟩,
        ⟨.letter, "b", 5⟩, ⟨.other, "|", 6⟩, ⟨.letter, "c", 7⟩, ⟨.closeBrace, "\x7d", 8⟩] := by
      decide +kernel
    exact List.forall_mem_cons.2 ⟨⟨_, hbra, by decide⟩, List.forall_mem_singleton.2 ⟨_, hset, by decide⟩⟩
  have hlimit : ∀ offset, readTex .usual 2 called ≠ .error (.tex ⟨.tooManyExpansions, offset⟩) := by
    have hcomputed : exhausts? .usual 40 2 called = some false := by decide +kernel
    exact spares_of_exhausts? hcomputed
  exact ⟨hentry, hpaired, hlimit,
    readTex_template hentry rfl hpaired "\\right)" 2 hlimit⟩

end Formulary
