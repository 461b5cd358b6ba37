import Formulary.Proofs.Extraction.Blocks
import Formulary.Proofs.Update.ItemPlacement

/-! # What a reader sees

A list of children is read as a stream of symbols: a string of running text is its characters,
and every other child is one symbol (`Document.stream`).  Strings that are cut in two read as
before.

`Insertion.shownText` says how a text reads after some stretches of it have given way to one
place each; `Insertion.shownText_cons` says what one more stretch changes, if it is before the
others. -/

namespace Formulary

/-- What stands at one point of a list of children. -/
inductive Symbol where
  | char (c : Char)
  | place (id : NodeId)
deriving DecidableEq, Repr, Inhabited

namespace Document

/-- A child as symbols. -/
def symbols (doc : Document) (id : NodeId) : List Symbol :=
  match doc.text? id with
  | some s => s.toList.map .char
  | none => [.place id]

/-- The children of a place as symbols. -/
def stream (doc : Document) (id : NodeId) : List Symbol := (doc.kids id).flatMap doc.symbols

section

variable {doc doc' : Document} {p : NodeId} {children : List NodeId}

theorem symbols_of_text? {id : NodeId} {s : String} (h : doc.text? id = some s) :
    doc.symbols id = s.toList.map .char := by
  rw [symbols, h]

theorem symbols_of_text?_eq_none {id : NodeId} (h : doc.text? id = none) :
    doc.symbols id = [.place id] := by
  rw [symbols, h]

theorem Reshaped.symbols (h : doc.Reshaped doc' p children) {id : NodeId} (hid : id ∈ doc.ids) :
    doc'.symbols id = doc.symbols id := by
  rw [Document.symbols, Document.symbols, h.text? hid]

theorem Reshaped.flatMap_symbols (h : doc.Reshaped doc' p children) {ids : List NodeId}
    (hids : ∀ id ∈ ids, id ∈ doc.ids) :
    ids.flatMap doc'.symbols = ids.flatMap doc.symbols := by
  rw [List.flatMap_def, List.flatMap_def, List.map_congr_left fun id hid => h.symbols (hids id hid)]

theorem Remnant.symbols {ids : List NodeId} {chars : List Char} (h : doc.Remnant ids chars) :
    ids.flatMap doc.symbols = chars.map .char := by
  rcases h with ⟨rfl, rfl⟩ | ⟨id, rfl, hs⟩
  · rfl
  · rw [List.flatMap_singleton, symbols_of_text? hs, String.toList_ofList]

end

end Document

/-- A stretch of one of some strings that gives way to a place. -/
structure Insertion where
  /-- The index of the string. -/
  string : Nat
  start : Nat
  stop : Nat
  root : NodeId
deriving DecidableEq, Repr, Inhabited

namespace Insertion

/-- Whether the character at the offset `i` of the string `j` gives way. -/
def covers (x : Insertion) (j i : Nat) : Bool := x.string = j && x.start ≤ i && i < x.stop

/-- Whether the offset `i` of the string `j` is strictly inside the stretch. -/
def surrounds (x : Insertion) (j i : Nat) : Bool := x.string = j && x.start < i && i < x.stop

/-- What is seen of the character at the offset `i` of the string `j`. -/
def shownAt (xs : List Insertion) (j i : Nat) (c : Char) : List Symbol :=
  match xs.find? fun x => x.covers j i with
  | none => [.char c]
  | some x => if i = x.start then [.place x.root] else []

/-- What is seen of a text that begins at the offset `i` of the string `j`. -/
def shownText (xs : List Insertion) (j i : Nat) : List Char → List Symbol
  | [] => []
  | c :: rest => shownAt xs j i c ++ shownText xs j (i + 1) rest

section

variable {xs : List Insertion} {x : Insertion} {j i : Nat}

theorem covers_eq_false (h : x.string = j → i < x.start ∨ x.stop ≤ i) : x.covers j i = false := by
  rw [← Bool.not_eq_true]
  intro hc
  simp only [covers, Bool.and_eq_true, decide_eq_true_eq] at hc
  have := h hc.1.1
  omega

theorem shownAt_of_not_covers (h : ∀ x ∈ xs, x.string = j → i < x.start ∨ x.stop ≤ i) (c : Char) :
    shownAt xs j i c = [.char c] := by
  have hnone : xs.find? (fun x => x.covers j i) = none := by
    refine List.find?_eq_none.2 fun x hx => ?_
    rw [covers_eq_false (h x hx)]
    exact Bool.false_ne_true
  rw [shownAt, hnone]

theorem shownText_of_not_covers {s : List Char}
    (h : ∀ x ∈ xs, x.string = j → i + s.length ≤ x.start ∨ x.stop ≤ i) :
    shownText xs j i s = s.map .char := by
  induction s generalizing i with
  | nil => rfl
  | cons c rest ih =>
    rw [shownText, shownAt_of_not_covers, ih, List.map_cons]
    · rfl
    · intro x hx hj
      have := h x hx hj
      rw [List.length_cons] at this
      omega
    · intro x hx hj
      have := h x hx hj
      rw [List.length_cons] at this
      omega

theorem shownAt_cons_of_not_covers (h : x.string = j → i < x.start ∨ x.stop ≤ i) (c : Char) :
    shownAt (x :: xs) j i c = shownAt xs j i c := by
  rw [shownAt, List.find?_cons_of_neg (by simp [covers_eq_false h]), shownAt]

/-- A text that a stretch does not touch is seen as it is without that. -/
theorem shownText_cons_of_not_covers {s : List Char}
    (h : x.string = j → i + s.length ≤ x.start ∨ x.stop ≤ i) :
    shownText (x :: xs) j i s = shownText xs j i s := by
  induction s generalizing i with
  | nil => rfl
  | cons c rest ih =>
    rw [List.length_cons] at h
    rw [shownText, shownText, shownAt_cons_of_not_covers (fun hj => by have := h hj; omega),
      ih fun hj => by have := h hj; omega]

theorem shownText_append (xs : List Insertion) (j i : Nat) (s t : List Char) :
    shownText xs j i (s ++ t) = shownText xs j i s ++ shownText xs j (i + s.length) t := by
  induction s generalizing i with
  | nil => rfl
  | cons c rest ih =>
    rw [List.cons_append, shownText, shownText, ih, List.length_cons, List.append_assoc,
      Nat.add_assoc, Nat.add_comm 1]

theorem shownAt_cons_of_covers (h : x.covers j i = true) (c : Char) :
    shownAt (x :: xs) j i c = if i = x.start then [.place x.root] else [] := by
  have hfind : (x :: xs).find? (fun y => y.covers j i) = some x := List.find?_cons_of_pos h
  rw [shownAt, hfind]

/-- A stretch before all others: what is before it is seen as it is, and in its place the place
that it gives way to. -/
theorem shownText_cons (hlt : x.start < x.stop) (hlater : ∀ y ∈ xs, y.string = x.string →
    x.stop ≤ y.start) (i : Nat) (s : List Char) :
    shownText (x :: xs) x.string i s =
      (s.take (x.start - i)).map .char ++
        (if i ≤ x.start ∧ x.start < i + s.length then [.place x.root] else []) ++
        shownText xs x.string (i + (x.stop - i)) (s.drop (x.stop - i)) := by
  induction s generalizing i with
  | nil =>
    have hnot : ¬(i ≤ x.start ∧ x.start < i + ([] : List Char).length) := by
      rw [List.length_nil]
      omega
    rw [if_neg hnot]
    simp [shownText]
  | cons c rest ih =>
    rw [shownText]
    by_cases hstop : x.stop ≤ i
    · have hzero : x.start - i = 0 := by omega
      have hzero' : x.stop - i = 0 := by omega
      rw [hzero, hzero', if_neg (by omega), List.take_zero, List.drop_zero, Nat.add_zero,
        shownAt_cons_of_not_covers (fun _ => .inr hstop),
        shownText_cons_of_not_covers (fun _ => .inr (by omega))]
      rfl
    · rw [ih (i + 1), List.length_cons]
      have hdrop : x.stop - i = (x.stop - (i + 1)) + 1 := by omega
      have hfrom : i + 1 + (x.stop - (i + 1)) = i + (x.stop - i) := by omega
      rw [hfrom]
      rcases Nat.lt_trichotomy i x.start with hi | rfl | hi
      · have htake : x.start - i = (x.start - (i + 1)) + 1 := by omega
        have hcond : (i + 1 ≤ x.start ∧ x.start < i + 1 + rest.length) ↔
            (i ≤ x.start ∧ x.start < i + (rest.length + 1)) := by omega
        rw [shownAt_cons_of_not_covers (fun _ => .inl hi),
          shownAt_of_not_covers fun y hy hj => .inl (by have := hlater y hy hj; omega), htake,
          List.take_succ_cons, List.map_cons]
        simp only [hcond]
        rw [hdrop, List.drop_succ_cons]
        rfl
      · have hcov : x.covers x.string x.start = true := by
          simp [covers, hlt]
        rw [shownAt_cons_of_covers hcov, if_pos rfl, if_neg (by omega), if_pos (by omega),
          Nat.sub_self, Nat.sub_eq_zero_of_le (Nat.le_succ _), hdrop, List.drop_succ_cons]
        rfl
      · have hcov : x.covers x.string i = true := by
          simp only [covers, Bool.and_eq_true, decide_eq_true_eq]
          exact ⟨⟨trivial, Nat.le_of_lt hi⟩, Nat.lt_of_not_le hstop⟩
        rw [shownAt_cons_of_covers hcov, if_neg (by omega), if_neg (by omega), if_neg (by omega),
          Nat.sub_eq_zero_of_le (Nat.le_of_lt hi), Nat.sub_eq_zero_of_le (by omega : x.start ≤ i + 1),
          hdrop, List.drop_succ_cons]
        rfl

/-- Of stretches that follow each other only one covers a character. -/
theorem covers_unique (h : xs.Pairwise fun x y => y.string = x.string → x.stop ≤ y.start)
    {x y : Insertion} (hx : x ∈ xs) (hy : y ∈ xs) (hcx : x.covers j i = true)
    (hcy : y.covers j i = true) : x = y := by
  simp only [covers, Bool.and_eq_true, decide_eq_true_eq] at hcx hcy
  obtain ⟨k, hk, rfl⟩ := List.mem_iff_getElem.1 hx
  obtain ⟨l, hl, rfl⟩ := List.mem_iff_getElem.1 hy
  rcases Nat.lt_trichotomy k l with hlt | rfl | hlt
  · have := List.pairwise_iff_getElem.1 h k l hk hl hlt (hcy.1.1.trans hcx.1.1.symm)
    omega
  · rfl
  · have := List.pairwise_iff_getElem.1 h l k hl hk hlt (hcx.1.1.trans hcy.1.1.symm)
    omega

theorem find?_covers (h : xs.Pairwise fun x y => y.string = x.string → x.stop ≤ y.start)
    {x : Insertion} (hx : x ∈ xs) (hc : x.covers j i = true) :
    xs.find? (fun y => y.covers j i) = some x := by
  cases hfind : xs.find? fun y => y.covers j i with
  | none => exact absurd hc (List.find?_eq_none.1 hfind x hx)
  | some y =>
    have hcy : y.covers j i = true := by simpa using List.find?_some hfind
    rw [covers_unique h (List.mem_of_find?_eq_some hfind) hx hcy hc]

theorem place_mem_shownText
    (h : xs.Pairwise fun x y => y.string = x.string → x.stop ≤ y.start) {x : Insertion}
    (hx : x ∈ xs) (hlt : x.start < x.stop) {s : List Char} (hle : i ≤ x.start)
    (hin : x.start < i + s.length) : .place x.root ∈ shownText xs x.string i s := by
  induction s generalizing i with
  | nil => simp only [List.length_nil] at hin; omega
  | cons c rest ih =>
    rw [shownText, List.mem_append]
    rcases Nat.eq_or_lt_of_le hle with rfl | hlt'
    · left
      rw [shownAt, find?_covers h hx (by simp [covers, hlt])]
      simp
    · exact .inr (ih hlt' (by rw [List.length_cons] at hin; omega))

end

end Insertion

end Formulary
