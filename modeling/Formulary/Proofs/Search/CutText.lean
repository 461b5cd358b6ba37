import Formulary.Proofs.Delimiters.TextParts
import Formulary.Proofs.Document.Symbols
import Formulary.Proofs.Search.Lines

/-! # Text without its stretches, and with them again

A text some stretches of which have given way to places is seen as characters and places
(`Insertion.shownText`).  If a place breaks the line that it is in, the lines are the parts of the
text between the stretches (`lines_broken`).  If it spells its stretch, the text is what it was
(`spelled_shownText`), also where something else stands between two parts of it, provided that no
stretch goes on there (`told_eq_plain`). -/

namespace Formulary

open Insertion

/-! ### Stretches of one string -/

theorem Insertion.shownText_filter (xs : List Insertion) (j i : Nat) (s : List Char) :
    shownText (xs.filter fun x => x.string = j) j i s = shownText xs j i s := by
  induction s generalizing i with
  | nil => rfl
  | cons c rest ih =>
    have hfind : (xs.filter fun x => x.string = j).find? (fun x => x.covers j i) =
        xs.find? fun x => x.covers j i := by
      rw [List.find?_filter]
      congr 1
      funext x
      by_cases hx : x.string = j <;> simp [covers, hx]
    rw [shownText, shownText, ih, shownAt, shownAt, hfind]

/-- Stretches of the string `j`, one after the other, between the offsets `i` and `k`. -/
structure AreStretches (j i k : Nat) (xs : List Insertion) : Prop where
  string : ∀ x ∈ xs, x.string = j
  nonempty : ∀ x ∈ xs, x.start < x.stop
  within : ∀ x ∈ xs, i ≤ x.start ∧ x.stop ≤ k
  ordered : xs.Pairwise fun x y => x.stop ≤ y.start

theorem AreStretches.tail {j i k : Nat} {x : Insertion} {xs : List Insertion}
    (h : AreStretches j i k (x :: xs)) : AreStretches j x.stop k xs where
  string := fun y hy => h.string y (List.mem_cons_of_mem _ hy)
  nonempty := fun y hy => h.nonempty y (List.mem_cons_of_mem _ hy)
  within := fun y hy => ⟨(List.pairwise_cons.1 h.ordered).1 y hy,
    (h.within y (List.mem_cons_of_mem _ hy)).2⟩
  ordered := (List.pairwise_cons.1 h.ordered).2

theorem AreStretches.shownText_cons {j i : Nat} {s : List Char} {x : Insertion}
    {xs : List Insertion} (h : AreStretches j i (i + s.length) (x :: xs)) :
    shownText (x :: xs) j i s = (s.take (x.start - i)).map .char ++ [.place x.root] ++
      shownText xs j x.stop (s.drop (x.stop - i)) := by
  have hlt := h.nonempty x (List.mem_cons_self ..)
  obtain ⟨hstart, hstop⟩ := h.within x (List.mem_cons_self ..)
  have hlater := (List.pairwise_cons.1 h.ordered).1
  have hstring := h.string x (List.mem_cons_self ..)
  have hcons := Insertion.shownText_cons hlt (fun y hy _ => hlater y hy) i s
  rw [hstring] at hcons
  rw [hcons, if_pos (by omega), show i + (x.stop - i) = x.stop by omega]

/-! ### Broken lines -/

/-- A symbol in signs, where a place breaks the line. -/
def Symbol.broken : Symbol → List Sign
  | .char c => [.char c]
  | .place _ => [.stop, .stop]

theorem flatMap_broken_map_char (s : List Char) :
    (s.map Symbol.char).flatMap Symbol.broken = s.map .char := by
  rw [List.flatMap_map]
  exact List.map_eq_flatMap.symm

theorem lines_map_char (pending : List Sign) (s : List Char) :
    lines Sign.isStop pending (s.map .char) = [pending ++ s.map .char] := by
  have hnone : ∀ k ∈ s.map Sign.char, k.isStop = false := fun k hk => by
    obtain ⟨c, -, rfl⟩ := List.mem_map.1 hk
    rfl
  have happend := lines_append pending hnone []
  rw [List.append_nil] at happend
  rw [happend]
  rfl

/-- Where places break the lines of a text, its lines are the parts between the stretches, and
empty ones. -/
theorem lines_broken {β : Type} {g : List Char → List β} (hg : g [] = []) {j i : Nat}
    {s : List Char} {xs : List Insertion} (h : AreStretches j i (i + s.length) xs) :
    (lines Sign.isStop [] ((shownText xs j i s).flatMap Symbol.broken)).flatMap (g ∘ textOf) =
      (Delimiters.parts i s (xs.map fun x => (x.start, x.stop))).flatMap g := by
  induction xs generalizing i s with
  | nil =>
    rw [shownText_of_not_covers (by simp), flatMap_broken_map_char, lines_map_char,
      List.flatMap_singleton, Function.comp, List.nil_append, textOf_map_char]
    exact (List.flatMap_singleton ..).symm
  | cons x xs ih =>
    obtain ⟨hstart, hstop⟩ := h.within x (List.mem_cons_self ..)
    have hlt := h.nonempty x (List.mem_cons_self ..)
    have hend : x.stop + (s.drop (x.stop - i)).length = i + s.length := by
      rw [List.length_drop]
      omega
    have hrest := @ih x.stop (s.drop (x.stop - i)) (hend ▸ h.tail)
    have hbroken : [Symbol.place x.root].flatMap Symbol.broken = [.stop, .stop] := rfl
    have hsign : Sign.stop.isStop = true := rfl
    have hempty : (g ∘ textOf) [] = [] := hg
    have hfirst : (g ∘ textOf) ([] ++ (s.take (x.start - i)).map Sign.char) =
        g (s.take (x.start - i)) := congrArg g (textOf_map_char _)
    rw [h.shownText_cons, List.flatMap_append, List.flatMap_append, flatMap_broken_map_char,
      hbroken, List.append_assoc, List.cons_append, List.cons_append, List.nil_append,
      lines_append_stop hsign, lines_map_char, lines, if_pos hsign, List.flatMap_append,
      List.flatMap_singleton, List.flatMap_cons, hempty, hfirst, List.nil_append, hrest]
    exact List.flatMap_cons.symm

/-! ### Spelled stretches -/

/-- A symbol as text, where a place spells the stretch that it stands for. -/
def Symbol.spelled (spell : NodeId → List Char) : Symbol → List Char
  | .char c => [c]
  | .place id => spell id

theorem flatMap_spelled_map_char (spell : NodeId → List Char) (s : List Char) :
    (s.map Symbol.char).flatMap (Symbol.spelled spell) = s := by
  rw [List.flatMap_map]
  exact List.flatMap_singleton' s

/-- No stretch goes on at an offset. -/
def IsBoundary (xs : List Insertion) (i : Nat) : Prop := ∀ x ∈ xs, ¬(x.start < i ∧ i < x.stop)

/-- The places of some stretches spell them in the text `line`. -/
def AreSpelled (spell : NodeId → List Char) (line : List Char) (xs : List Insertion) : Prop :=
  ∀ x ∈ xs, spell x.root = (line.drop x.start).take (x.stop - x.start)

theorem drop_take_eq {line s : List Char} {i a b : Nat} (hs : (line.drop i).take s.length = s)
    (hab : i + a + b ≤ i + s.length) : (line.drop (i + a)).take b = (s.drop a).take b := by
  conv_rhs => rw [← hs]
  rw [← List.drop_drop, List.drop_take, List.take_take]
  congr 1
  omega

theorem take_append_take_append_drop (s : List Char) {a b : Nat} (h : a ≤ b) :
    s.take a ++ ((s.drop a).take (b - a) ++ s.drop b) = s := by
  have hdrop : s.drop b = (s.drop a).drop (b - a) := by
    rw [List.drop_drop, Nat.add_sub_cancel' h]
  rw [hdrop, List.take_append_drop, List.take_append_drop]

/-- Where no stretch goes on at its ends, a text with its stretches spelled is as it was. -/
theorem spelled_shownText {spell : NodeId → List Char} {line s : List Char} {j i k l : Nat}
    {xs : List Insertion} (h : AreStretches j k l xs) (hspelled : AreSpelled spell line xs)
    (hs : (line.drop i).take s.length = s) (hi : IsBoundary xs i)
    (hend : IsBoundary xs (i + s.length)) :
    (shownText xs j i s).flatMap (Symbol.spelled spell) = s := by
  induction xs generalizing k i s with
  | nil => rw [shownText_of_not_covers (by simp), flatMap_spelled_map_char]
  | cons x xs ih =>
    have hlt := h.nonempty x (List.mem_cons_self ..)
    have hlater := (List.pairwise_cons.1 h.ordered).1
    have hstring := h.string x (List.mem_cons_self ..)
    have hcons := Insertion.shownText_cons hlt (fun y hy _ => hlater y hy) i s
    have hspelled' : AreSpelled spell line xs := fun y hy => hspelled y (List.mem_cons_of_mem _ hy)
    have hi' : IsBoundary xs i := fun y hy => hi y (List.mem_cons_of_mem _ hy)
    have hend' : IsBoundary xs (i + s.length) := fun y hy => hend y (List.mem_cons_of_mem _ hy)
    have hbegin := hi x (List.mem_cons_self ..)
    have hstop := hend x (List.mem_cons_self ..)
    rw [hstring] at hcons
    rw [hcons, List.flatMap_append, List.flatMap_append, flatMap_spelled_map_char]
    rcases Nat.lt_or_ge x.start i with hbefore | hbefore
    · -- the stretch ends before the text
      rw [show x.start - i = 0 by omega, show x.stop - i = 0 by omega, if_neg (by omega),
        List.take_zero, List.flatMap_nil, List.nil_append, List.nil_append, Nat.add_zero,
        List.drop_zero]
      exact ih h.tail hspelled' hs hi' hend'
    rcases Nat.lt_or_ge x.start (i + s.length) with hinside | hbehind
    · -- the stretch is in the text
      have hlength : (s.drop (x.stop - i)).length = i + s.length - x.stop := by
        rw [List.length_drop]
        omega
      have hrest : (line.drop x.stop).take (s.drop (x.stop - i)).length = s.drop (x.stop - i) := by
        have hall := @drop_take_eq line s i (x.stop - i) (s.drop (x.stop - i)).length hs (by omega)
        rwa [show i + (x.stop - i) = x.stop by omega, List.take_length] at hall
      have hspell : spell x.root = (s.drop (x.start - i)).take (x.stop - x.start) := by
        rw [hspelled x (List.mem_cons_self ..),
          ← @drop_take_eq line s i (x.start - i) (x.stop - x.start) hs (by omega),
          show i + (x.start - i) = x.start by omega]
      have hi'' : IsBoundary xs x.stop := fun y hy => by
        have := hlater y hy
        omega
      have hend'' : IsBoundary xs (x.stop + (s.drop (x.stop - i)).length) := by
        rw [hlength, show x.stop + (i + s.length - x.stop) = i + s.length by omega]
        exact hend'
      rw [if_pos ⟨hbefore, hinside⟩, show i + (x.stop - i) = x.stop by omega,
        ih h.tail hspelled' hrest hi'' hend'', List.flatMap_singleton, Symbol.spelled, hspell,
        List.append_assoc, show x.stop - x.start = x.stop - i - (x.start - i) by omega]
      exact take_append_take_append_drop s (by omega)
    · -- the stretch begins behind the text
      rw [if_neg (by omega), List.take_of_length_le (by omega), List.flatMap_nil, List.append_nil,
        List.drop_eq_nil_of_le (by omega)]
      exact List.append_nil s

/-! ### Text with something else in it -/

/-- Something in a line: text, or what is not text but as wide as some characters. -/
inductive Atom (β : Type) where
  | text (s : List Char)
  | other (width : Nat) (out : List β)

/-- The atom as it is. -/
def Atom.plain {β : Type} (say : Char → β) : Atom β → List β
  | text s => s.map say
  | other _ out => out

section

variable {β : Type} (say : Char → β) (spell : NodeId → List Char) (xs : List Insertion) (j : Nat)

/-- Some atoms, of which the first begins at the offset `i`, with the stretches of their text given
way to places that spell them. -/
def told (i : Nat) : List (Atom β) → List β
  | [] => []
  | .text s :: rest =>
    ((shownText xs j i s).flatMap (Symbol.spelled spell)).map say ++ told (i + s.length) rest
  | .other n out :: rest => out ++ told (i + n) rest

/-- The texts of some atoms, of which the first begins at the offset `i`, are where they stand in
`line`, and no stretch goes on at the ends of the other ones. -/
def Fits (line : List Char) (i : Nat) : List (Atom β) → Prop
  | [] => IsBoundary xs i
  | .text s :: rest => (line.drop i).take s.length = s ∧ Fits line (i + s.length) rest
  | .other n _ :: rest => IsBoundary xs i ∧ IsBoundary xs (i + n) ∧ Fits line (i + n) rest

end

section

variable {β : Type} {say : Char → β} {spell : NodeId → List Char} {xs : List Insertion}
  {j k l : Nat} {line : List Char}

/-- The text that was told since the offset `i`, where no stretch goes on, is `pending`. -/
theorem told_append_pending (h : AreStretches j k l xs) (hspelled : AreSpelled spell line xs)
    {atoms : List (Atom β)} {i : Nat} {pending : List Char}
    (hpending : (line.drop i).take pending.length = pending) (hi : IsBoundary xs i)
    (hfits : Fits xs line (i + pending.length) atoms) :
    ((shownText xs j i pending).flatMap (Symbol.spelled spell)).map say ++
        told say spell xs j (i + pending.length) atoms =
      pending.map say ++ atoms.flatMap (Atom.plain say) := by
  induction atoms generalizing i pending with
  | nil => rw [spelled_shownText h hspelled hpending hi hfits, told, List.flatMap_nil]
  | cons a rest ih =>
    cases a with
    | text s =>
      obtain ⟨hs, hrest⟩ := hfits
      have hjoined : (line.drop i).take (pending ++ s).length = pending ++ s := by
        rw [List.length_append, List.take_add, hpending, List.drop_drop, hs]
      have hboth := ih hjoined hi (by rwa [List.length_append, ← Nat.add_assoc])
      rw [shownText_append, List.length_append, ← Nat.add_assoc] at hboth
      simpa only [told, List.flatMap_cons, Atom.plain, List.flatMap_append, List.map_append,
        List.append_assoc] using hboth
    | other n out =>
      obtain ⟨hbefore, hafter, hrest⟩ := hfits
      have hnext := @ih (i + pending.length + n) [] rfl hafter hrest
      rw [spelled_shownText h hspelled hpending hi hbefore, told, List.flatMap_cons, Atom.plain]
      exact congrArg (fun l => pending.map say ++ (out ++ l)) hnext

/-- Atoms whose stretches are spelled are as they were. -/
theorem told_eq_plain (h : AreStretches j k l xs) (hspelled : AreSpelled spell line xs)
    {atoms : List (Atom β)} (hstart : IsBoundary xs 0) (hfits : Fits xs line 0 atoms) :
    told say spell xs j 0 atoms = atoms.flatMap (Atom.plain say) :=
  told_append_pending h hspelled (show (line.drop 0).take ([] : List Char).length = [] from rfl)
    hstart hfits

end

end Formulary
