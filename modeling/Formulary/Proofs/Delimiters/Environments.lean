import Formulary.Proofs.Delimiters.Closers
import Formulary.Proofs.Reader.Passages

/-! # Environments in environments

The reader nests environments, but the search for delimiters does not.  It ends an environment at
the first end of that name outside braces, so it finds one whole if the passage in it has no
environment of the same name outside braces, and only then (`Passage.find_environment`).  An
environment in one of the same name is cut short (`Passage.find_environment_nested`). -/

namespace Formulary

/-! ### What a search passes over -/

namespace Delimiters

/-- The cut with more text in front of it. -/
def Cut.after (part : List Char) (cut : Cut) : Cut := { cut with body := part ++ cut.body }

/-- The search for a closer goes over a part of a text, from one depth of braces to another. -/
def Closer.Passes (closer : Closer) (depth depth' : Nat) (part : List Char) : Prop :=
  ∀ s, closing? closer depth (part ++ s) = (closing? closer depth' s).map (Cut.after part)

namespace Closer.Passes

variable {closer : Closer} {depth depth' depth'' : Nat} {part part' : List Char} {c : Char}

theorem nil (closer : Closer) (depth : Nat) : closer.Passes depth depth [] := by
  intro s
  rw [List.nil_append]
  cases closing? closer depth s <;> rfl

theorem append (h : closer.Passes depth depth' part) (h' : closer.Passes depth' depth'' part') :
    closer.Passes depth depth'' (part ++ part') := by
  intro s
  rw [List.append_assoc, h, h']
  cases closing? closer depth'' s with
  | none => rfl
  | some cut => simp [Cut.after]

theorem closing?_eq (h : closer.Passes depth 0 part) {mark : List Char} (hmark : closer.IsSpelled mark)
    (s : List Char) : closing? closer depth (part ++ (mark ++ s)) = some ⟨part, mark, s⟩ := by
  rw [h, closing?_of_closer ((if_pos rfl).trans (Closer.length?_of_isSpelled hmark s)),
    List.take_left, List.drop_left, Option.map_some, Cut.after, List.append_nil]

end Closer.Passes

section

variable {name : List Char} {depth : Nat} {c : Char} {s part : List Char}

theorem Closer.length?_of_ne (hc : c ≠ '\\') : (Closer.environment name).length? (c :: s) = none := by
  have hnone : Text.after? "\\end".toList (c :: s) = none := if_neg (Ne.symm hc)
  rw [length?, hnone]

theorem passes_char (hc : c ≠ '\\') :
    (Closer.environment name).Passes depth (depthAfter depth [c]) [c] := by
  intro s
  have hlength : (Closer.environment name).length? (c :: s) = none := Closer.length?_of_ne hc
  have hnone : (if depth = 0 then (Closer.environment name).length? (c :: s) else none) = none := by
    rw [hlength, ite_self]
  rw [List.singleton_append, closing?_cons hnone, Closer.passed_of_ne hlength hc, List.take_zero,
    List.drop_zero]
  rfl

theorem passes_pair
    (hlength : ∀ s, (Closer.environment name).length? ('\\' :: c :: (part ++ s)) = none)
    (hc : c ≠ '\n') (hpart : (Closer.environment name).Passes depth depth part) :
    (Closer.environment name).Passes depth depth ('\\' :: c :: part) := by
  intro s
  have hnone : (if depth = 0 then (Closer.environment name).length? ('\\' :: c :: (part ++ s))
      else none) = none := by
    rw [hlength, ite_self]
  have hdepth : depthAfter depth ['\\', c] = depth := by simp [depthAfter]
  rw [List.cons_append, List.cons_append, closing?_cons hnone,
    Closer.passed_backslash (hlength s), if_pos hc, List.take_succ_cons, List.take_zero,
    List.drop_succ_cons, List.drop_zero, hdepth, hpart, Option.map_map]
  rfl

theorem Closer.IsTame.passes {closer : Closer} (h : closer.IsTame) {mark : List Char}
    (hmark : closer.IsSpelled mark) (hdepth : 0 < depth) : closer.Passes depth depth mark := by
  intro s
  obtain ⟨c, rest, rfl⟩ := List.exists_cons_of_ne_nil (h.ne_nil hmark)
  rw [List.cons_append, closing?_cons (if_neg (Nat.ne_of_gt hdepth)),
    Closer.passed_of_isSpelled hmark, List.take_left, List.drop_left, h.depth hmark]
  rfl

theorem passes_isPlain (hc : IsPlain c) : (Closer.environment name).Passes depth depth [c] := by
  have hfirst : (Closer.environment name).Passes depth (depthAfter depth [c]) [c] :=
    passes_char hc.1
  rwa [hc.depthAfter] at hfirst

theorem passes_plain (h : ∀ c ∈ part, IsPlain c) :
    (Closer.environment name).Passes depth depth part := by
  induction part with
  | nil => exact .nil _ _
  | cons c part ih =>
    exact (passes_isPlain (h c (List.mem_cons_self ..))).append
      (ih fun d hd => h d (List.mem_cons_of_mem _ hd))

/-- What stands in braces is passed over if it is inside them. -/
theorem passes_braced (h : (Closer.environment name).Passes (depth + 1) (depth + 1) part) :
    (Closer.environment name).Passes depth depth (braced part) :=
  (passes_char (by decide)).append (h.append (passes_char (by decide)))

/-- Mathematics begins with a backslash or a dollar sign. -/
theorem findFrom_of_ne (string start : Nat) (h : ∀ c ∈ s, c ≠ '\\' ∧ c ≠ '$') :
    findFrom {} string start s = [] := by
  induction s generalizing start with
  | nil => rw [findFrom]
  | cons c rest ih =>
    have hnone : opening? {} (c :: rest) = none := by
      refine Option.eq_none_iff_forall_ne_some.2 fun found hfound => ?_
      obtain ⟨hne, hne'⟩ := h c (List.mem_cons_self ..)
      obtain ⟨opening, more⟩ := found
      rcases opensWith_of_opening? hfound with
        ⟨-, -, ⟨tail, htail⟩ | ⟨tail, htail⟩⟩ | ⟨closer, -, hopens⟩
      · exact hne (List.cons.inj htail).1.symm
      · exact hne (List.cons.inj htail).1.symm
      · obtain ⟨hfirst, -⟩ := hopens.ends
        rcases hfirst with hfirst | hfirst
        · exact hne' (Option.some.inj hfirst)
        · exact hne (Option.some.inj hfirst)
    rw [findFrom, hnone]
    exact ih (start + 1) fun d hd => h d (List.mem_cons_of_mem _ hd)

theorem eq_of_braced {name name' s s' : List Char} (hname : '\x7d' ∉ name) (hname' : '\x7d' ∉ name')
    (h : braced name ++ s = braced name' ++ s') : name = name' := by
  have htake : ∀ {name s : List Char}, '\x7d' ∉ name →
      ((braced name ++ s).tail).takeWhile (· ≠ '\x7d') = name := by
    intro name s hname
    have hall : ∀ c ∈ name, decide (c ≠ '\x7d') = true := fun c hc =>
      decide_eq_true fun heq => hname (heq ▸ hc)
    rw [braced, List.cons_append, List.tail_cons, List.append_assoc,
      List.takeWhile_append_of_pos hall]
    simp
  rw [← htake hname, h, htake hname']

end

end Delimiters

/-! ### Searching a passage -/

namespace Passage

open Delimiters

/-- Whether a passage has an environment of a given name outside braces. -/
def exposes (name : List AsciiLetter) : Passage → Bool
  | empty => false
  | letter _ rest => rest.exposes name
  | group _ rest => rest.exposes name
  | environment other inside rest =>
    inside.exposes name || other = name || rest.exposes name

variable {name other : List AsciiLetter} {depth : Nat}

theorem isPlain_named (name : List AsciiLetter) : ∀ c ∈ named name, IsPlain c := by
  intro c hc
  obtain ⟨letter, -, rfl⟩ := List.mem_map.1 hc
  exact isPlain_of_isAlpha letter.2

theorem not_mem_named (name : List AsciiLetter) : '\x7d' ∉ named name := fun hmem =>
  (isPlain_named name _ hmem).2.2 rfl

theorem named_injective : Function.Injective named := Subtype.val_injective.list_map

theorem isSpelled_ending (name : List AsciiLetter) :
    (Closer.environment (named name)).IsSpelled (ending name) :=
  ⟨[], List.forall_mem_nil _, rfl⟩

theorem passes_named (name : List AsciiLetter) {searched : List Char} :
    (Closer.environment searched).Passes depth depth (braced (named name)) :=
  passes_braced (passes_plain (isPlain_named name))

theorem beginning_eq (name : List AsciiLetter) :
    beginning name = '\\' :: 'b' :: ("egin".toList ++ braced (named name)) := rfl

theorem ending_eq (name : List AsciiLetter) :
    ending name = '\\' :: 'e' :: ("nd".toList ++ braced (named name)) := rfl

theorem passes_beginning (name : List AsciiLetter) {searched : List Char} :
    (Closer.environment searched).Passes depth depth (beginning name) := by
  have hplain : ∀ c ∈ "egin".toList, IsPlain c := fun c hc =>
    isPlain_of_isAlpha (List.all_eq_true.1 (by decide : "egin".toList.all Char.isAlpha = true) c hc)
  rw [beginning_eq]
  exact passes_pair (fun _ => rfl) (by decide) ((passes_plain hplain).append (passes_named name))

theorem length?_ending (h : other ≠ name) (s : List Char) :
    (Closer.environment (named name)).length? (ending other ++ s) = none := by
  have hend : Text.after? "\\end".toList (ending other ++ s) = some (braced (named other) ++ s) :=
    Text.after?_eq_some.2 (List.append_assoc ..)
  have hname : Text.after? (braced (named name)) (braced (named other) ++ s) = none := by
    refine Option.eq_none_iff_forall_ne_some.2 fun rest hrest => h ?_
    exact named_injective (eq_of_braced (not_mem_named other) (not_mem_named name)
      (Text.after?_eq_some.1 hrest))
  have hblanks := dropWhile_blanks (List.forall_mem_nil _) (named other) s
  rw [List.nil_append] at hblanks
  rw [Closer.length?, hend]
  dsimp only
  rw [hblanks, hname, Option.map_none]

/-- The end of another environment is passed over, and so is every one inside braces. -/
theorem passes_ending (h : 0 < depth ∨ other ≠ name) :
    (Closer.environment (named name)).Passes depth depth (ending other) := by
  by_cases hother : other = name
  · subst hother
    exact (Closer.isTame_environment (isPlain_named other)).passes (isSpelled_ending other)
      (h.resolve_right (not_not.2 rfl))
  · have hplain : ∀ c ∈ "nd".toList, IsPlain c := fun c hc =>
      isPlain_of_isAlpha (List.all_eq_true.1 (by decide : "nd".toList.all Char.isAlpha = true) c hc)
    have hlength := length?_ending hother
    rw [ending_eq] at hlength ⊢
    exact passes_pair hlength (by decide) ((passes_plain hplain).append (passes_named other))

/-- A passage is passed over inside braces, and outside if it has no environment of the name that is
searched for there. -/
theorem passes_text (passage : Passage) (h : 0 < depth ∨ passage.exposes name = false) :
    (Closer.environment (named name)).Passes depth depth passage.text := by
  induction passage generalizing depth with
  | empty => exact .nil _ _
  | letter c rest ih =>
    exact (passes_isPlain (isPlain_of_isAlpha c.2)).append (ih h)
  | group inside rest ihInside ihRest =>
    exact (passes_braced (ihInside (.inl (Nat.succ_pos _)))).append (ihRest h)
  | environment other inside rest ihInside ihRest =>
    simp only [exposes, Bool.or_eq_false_iff, decide_eq_false_iff_not] at h
    exact (passes_beginning other).append
      ((ihInside (h.imp_right fun hnot => hnot.1.1)).append
        ((passes_ending (h.imp_right fun hnot => hnot.1.2)).append
          (ihRest (h.imp_right fun hnot => hnot.2))))

theorem exists_ending (passage : Passage) (h : passage.exposes name = true) :
    ∃ before after, passage.text = before ++ (ending name ++ after) ∧
      (Closer.environment (named name)).Passes 0 0 before := by
  induction passage with
  | empty => cases h
  | letter c rest ih =>
    obtain ⟨before, after, heq, hpasses⟩ := ih h
    exact ⟨_, after, by rw [text, heq]; rfl,
      (passes_isPlain (isPlain_of_isAlpha c.2)).append hpasses⟩
  | group inside rest _ ih =>
    obtain ⟨before, after, heq, hpasses⟩ := ih h
    have hgroup : (Closer.environment (named name)).Passes 0 0 (braced inside.text) :=
      passes_braced (passes_text inside (.inl (Nat.succ_pos 0)))
    exact ⟨_, after, by rw [text, heq, List.append_assoc], hgroup.append hpasses⟩
  | environment other inside rest ihInside ihRest =>
    have hbeginning : (Closer.environment (named name)).Passes 0 0 (beginning other) :=
      passes_beginning other
    cases hinside : inside.exposes name with
    | true =>
      obtain ⟨before, after, heq, hpasses⟩ := ihInside hinside
      exact ⟨_, after ++ (ending other ++ rest.text), by simp only [text, heq, List.append_assoc],
        hbeginning.append hpasses⟩
    | false =>
      have hfirst := hbeginning.append (passes_text inside (.inr hinside))
      by_cases hother : other = name
      · subst hother
        exact ⟨_, rest.text, by simp only [text, List.append_assoc], hfirst⟩
      · have hrest : rest.exposes name = true := by simpa [exposes, hinside, hother] using h
        obtain ⟨before, after, heq, hpasses⟩ := ihRest hrest
        exact ⟨_, after, by simp only [text, heq, List.append_assoc],
          (hfirst.append (passes_ending (.inr hother))).append hpasses⟩

/-- A text that is seen whole, as mathematics set apart. -/
def sighting (text : String) : Sighting where
  math := text
  opener := ""
  closer := ""
  string := 0
  start := 0
  stop := text.length
  display := true

/-- An environment is seen up to its first end that is not passed over. -/
theorem find_of_passes {before : List Char}
    (h : (Closer.environment (named name)).Passes 0 0 before) (after : List Char) :
    find {} [String.ofList (beginning name ++ (before ++ (ending name ++ after)))] =
      sighting (enclosed name before) :: findFrom {} 0 (enclosed name before).length after := by
  have hopens : OpensWith (beginning name ++ (before ++ (ending name ++ after))) (beginning name)
      (.environment (named name)) :=
    .environment (List.forall_mem_nil _) (not_mem_named name) (List.prefix_append ..)
  obtain ⟨opening, more, hopen, hlen, hcloser⟩ := hopens.opening?
  obtain rfl : opening = .environment (named name) := by
    cases opening <;> cases hcloser
    rfl
  have hseen : seen? 0 0 (beginning name) (before ++ (ending name ++ after))
      (.environment (named name)) = some (sighting (enclosed name before), after) := by
    rw [seen?, h.closing?_eq (isSpelled_ending name)]
    simp [sighting, enclosed]
    omega
  exact find_of_seen hopen hlen hseen

theorem findFrom_ending (string start : Nat) (name : List AsciiLetter) :
    findFrom {} string start (ending name) = [] := by
  have hnone : opening? {} (ending name) = none := by
    rw [ending_eq, opening?, delimiterAt?, openers_usual]
    rfl
  have hplain : ∀ c ∈ 'e' :: ("nd".toList ++ braced (named name)), c ≠ '\\' ∧ c ≠ '$' := by
    intro c hc
    have hc : c.isAlpha = true ∨ c = '\x7b' ∨ c = '\x7d' := by
      have hnamed : c ∈ named name → c.isAlpha = true := by
        intro hmem
        obtain ⟨letter, -, rfl⟩ := List.mem_map.1 hmem
        exact letter.2
      simp only [braced, List.mem_cons, List.mem_append, List.not_mem_nil, or_false] at hc
      rcases hc with rfl | hc | rfl | hc | rfl
      · exact .inl rfl
      · exact .inl (List.all_eq_true.1 (by decide : "nd".toList.all Char.isAlpha = true) c hc)
      · exact .inr (.inl rfl)
      · exact .inl (hnamed hc)
      · exact .inr (.inr rfl)
    rcases hc with hc | rfl | rfl
    · exact ⟨ne_of_class hc (by decide), ne_of_class hc (by decide)⟩
    · decide
    · decide
  rw [ending_eq] at hnone ⊢
  rw [findFrom, hnone]
  exact findFrom_of_ne string (start + 1) hplain

/-- The search finds an environment whole just if none of the same name is in it outside braces. -/
theorem find_enclosed_text (name : List AsciiLetter) (body : Passage) :
    find {} [enclosed name body.text] = [sighting (enclosed name body.text)] ↔
      body.exposes name = false := by
  constructor
  · refine fun hfind => Bool.eq_false_iff.2 fun hexposes => ?_
    obtain ⟨before, after, heq, hpasses⟩ := body.exists_ending hexposes
    have hcut := find_of_passes hpasses (after ++ ending name)
    rw [enclosed, heq, List.append_assoc, List.append_assoc, hcut] at hfind
    have hstop := congrArg Sighting.stop (List.cons.inj hfind).1
    have hpos : 0 < (ending name).length := Nat.succ_pos _
    simp only [sighting, enclosed, String.length_ofList, List.length_append] at hstop
    omega
  · intro hexposes
    have hfind := find_of_passes (passes_text body (.inr hexposes)) []
    rwa [List.append_nil, findFrom] at hfind

/-- An environment with a passage in it is read as one construction, and the search finds it whole
just if the passage has no environment of the same name outside braces. -/
theorem find_environment (name : List AsciiLetter) (body : Passage) (limit : Int) :
    let text := enclosed name body.text
    let value := Value.text (String.ofList (named name))
    readTex .usual limit text =
        .ok (some ((Opener.environment value).built (.environment value) body.formulas)) ∧
      (Delimiters.find {} [text] =
          [{ math := text, opener := "", closer := "", string := 0, start := 0, stop := text.length,
             display := true }] ↔ body.exposes name = false) :=
  ⟨readTex_enclosed name body limit, find_enclosed_text name body⟩

/-- An environment in one of the same name is nested, but what is found ends with the inner one. -/
theorem find_environment_nested :
    let text := "\\begin\x7ba\x7d\\begin\x7ba\x7dx\\end\x7ba\x7d\\end\x7ba\x7d"
    let inner : Formula :=
      { kind := "mrow", children := [.token "mi" "x" [] none]
        attributes := [("data-environment", "a")] }
    let found : Sighting :=
      { math := "\\begin\x7ba\x7d\\begin\x7ba\x7dx\\end\x7ba\x7d", opener := "", closer := ""
        string := 0, start := 0, stop := 26, display := true }
    readTex .usual defaultLimit text = .ok (some
        { kind := "mrow", children := [inner], attributes := [("data-environment", "a")] }) ∧
      Delimiters.find {} [text] = [found] ∧ found.math ≠ text := by
  let a : List AsciiLetter := [⟨'a', rfl⟩]
  let x : Passage := .letter ⟨'x', rfl⟩ .empty
  intro text inner found
  refine ⟨readTex_enclosed a (.environment a x .empty) defaultLimit, ?_, by decide⟩
  have hpasses : (Closer.environment (named a)).Passes 0 0 (beginning a ++ x.text) :=
    (passes_beginning a).append (passes_text x (.inr rfl))
  have hfind := find_of_passes hpasses (ending a)
  have htext : String.ofList
      (beginning a ++ (beginning a ++ x.text ++ (ending a ++ ending a))) = text := by
    decide +kernel
  have hfound : sighting (enclosed a (beginning a ++ x.text)) = found := by decide +kernel
  rw [htext, hfound, findFrom_ending] at hfind
  exact hfind

end Passage

end Formulary
