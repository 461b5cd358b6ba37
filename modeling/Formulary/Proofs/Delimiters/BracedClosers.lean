import Formulary.Proofs.Delimiters.Braces
import Formulary.Proofs.Delimiters.TextParts

/-! # Closers inside braces

A closer counts where no brace is open.  With one pair of delimiters, a body between them whose
braces are balanced, and no other place in it where the closer begins outside braces, the search
finds the body (`find_enclosed`).

A closer inside braces is passed over as a whole, and its own braces with it.  They are not counted,
so the body is found only if that makes no difference: if every closer that begins inside the body
is a single character, or is balanced itself.  Between double braces, the body `{a}` is missed
(`find_doubleBraces`). -/

namespace Formulary

/-! ### Balanced texts -/

/-- How many braces a text opens more than it closes. -/
def surplus (s : List Char) : Int := s.count '\x7b' - s.count '\x7d'

/-- No brace is closed that was not opened before, and none is left open. -/
def IsBalanced (s : List Char) : Prop :=
  (∀ p ≤ s.length, 0 ≤ surplus (s.take p)) ∧ surplus s = 0

instance : DecidablePred IsBalanced := fun _ => inferInstanceAs (Decidable (_ ∧ _))

theorem surplus_append (s t : List Char) : surplus (s ++ t) = surplus s + surplus t := by
  simp only [surplus, List.count_append]
  omega

theorem IsBalanced.nonneg {s : List Char} (h : IsBalanced s) (p : Nat) :
    0 ≤ surplus (s.take p) := by
  rcases Nat.le_total p s.length with hle | hle
  · exact h.1 p hle
  · have hclosed := h.2
    rw [← List.take_of_length_le hle] at hclosed
    exact Int.le_of_eq hclosed.symm

namespace Delimiters

theorem depthAfter_singleton {depth : Nat} {c : Char} (h : 0 ≤ depth + surplus [c]) :
    (depthAfter depth [c] : Int) = depth + surplus [c] := by
  by_cases hopen : c = '\x7b'
  · subst hopen
    rfl
  by_cases hclose : c = '\x7d'
  · subst hclose
    simp [depthAfter, surplus] at h ⊢
    omega
  · simp [depthAfter, surplus, hopen, hclose]

theorem depthAfter_of_isBalanced {s : List Char} (h : IsBalanced s) (depth : Nat) :
    depthAfter depth s = depth := by
  have hopen : s ≠ ['\x7b'] := by
    rintro rfl
    exact absurd h (by decide)
  have hclose : s ≠ ['\x7d'] := by
    rintro rfl
    exact absurd h (by decide)
  rw [depthAfter, if_neg hopen, if_neg hclose]

/-! ### Bodies -/

/-- A body, inside `depth` braces at its beginning, that the delimiter `closer` behind it may close:
it hides nothing, closes the braces, and the closer begins in it inside braces only, where it can be
passed over. -/
structure IsBody (closer : List Char) (depth : Nat) (body : List Char) : Prop where
  plain : '\\' ∉ body
  nonneg : ∀ p, 0 ≤ depth + surplus (body.take p)
  closed : depth + surplus body = 0
  inside : ∀ p < body.length, closer <+: (body ++ closer).drop p →
    0 < depth + surplus (body.take p)
  passable : ∀ p < body.length, closer <+: (body ++ closer).drop p →
    closer.length = 1 ∨ IsBalanced closer

variable {closer body part : List Char} {depth : Nat}

theorem IsBody.skip (h : IsBody closer depth (part ++ body)) {depth' : Nat}
    (hdepth : (depth' : Int) = depth + surplus part) : IsBody closer depth' body := by
  have htake (p : Nat) : depth + surplus ((part ++ body).take (part.length + p)) =
      depth' + surplus (body.take p) := by
    rw [List.take_length_add_append, surplus_append]
    omega
  have hdrop (p : Nat) :
      (part ++ body ++ closer).drop (part.length + p) = (body ++ closer).drop p := by
    rw [List.append_assoc, List.drop_length_add_append]
  have hlt {p : Nat} (hp : p < body.length) : part.length + p < (part ++ body).length := by
    rw [List.length_append]
    omega
  refine ⟨fun hmem => h.plain (List.mem_append_right _ hmem), fun p => ?_, ?_, fun p hp hhere => ?_,
    fun p hp hhere => ?_⟩
  · rw [← htake]
    exact h.nonneg _
  · have hclosed := h.closed
    rw [surplus_append] at hclosed
    omega
  · rw [← htake]
    exact h.inside _ (hlt hp) (by rwa [hdrop])
  · exact h.passable _ (hlt hp) (by rwa [hdrop])

/-- A closer that is passed over at the beginning of a body does not reach beyond it. -/
theorem IsBody.exists_append (h : IsBody closer depth body) (hne : body ≠ [])
    (hhere : closer <+: body ++ closer) (hbalanced : IsBalanced closer) :
    ∃ rest, body = closer ++ rest := by
  suffices hle : closer.length ≤ body.length from by
    obtain ⟨rest, hrest⟩ := List.prefix_of_prefix_length_le hhere (List.prefix_append ..) hle
    exact ⟨rest, hrest.symm⟩
  by_contra hlt
  -- otherwise the body is the beginning of a closer and leaves a brace open
  have hbegins : body <+: closer :=
    List.prefix_of_prefix_length_le (List.prefix_append ..) hhere (Nat.le_of_not_le hlt)
  have hpos := h.inside 0 (List.length_pos_iff.2 hne) hhere
  have hnonneg := hbalanced.nonneg body.length
  rw [← List.prefix_iff_eq_take.1 hbegins] at hnonneg
  have hclosed := h.closed
  rw [List.take_zero] at hpos
  have hnil : surplus [] = 0 := rfl
  omega

theorem prefix_of_length? {s : List Char} {m : Nat}
    (h : (Closer.delimiter closer).length? s = some m) : closer <+: s := by
  obtain ⟨after, hafter, -⟩ := Option.map_eq_some_iff.1 h
  exact ⟨after, (Text.after?_eq_some.1 hafter).symm⟩

variable {c : Char} {rest : List Char}

theorem IsBody.length?_eq_none (h : IsBody closer depth (c :: rest)) :
    (if depth = 0 then (Closer.delimiter closer).length? (c :: (rest ++ closer)) else none) =
      none := by
  split
  · rename_i hdepth
    refine Option.eq_none_iff_forall_ne_some.2 fun m hm => ?_
    have hpos := h.inside 0 (Nat.succ_pos _) (prefix_of_length? hm)
    rw [List.take_zero, hdepth] at hpos
    exact absurd hpos (by decide)
  · rfl

/-- At the beginning of a body one character is passed over, or a closer that is balanced. -/
theorem IsBody.passed (hcloser : closer ≠ []) (h : IsBody closer depth (c :: rest)) :
    (Closer.delimiter closer).passed c (rest ++ closer) = 0 ∨
      IsBalanced closer ∧ ∃ others tail, closer = c :: others ∧ rest = others ++ tail := by
  cases hlength : (Closer.delimiter closer).length? (c :: (rest ++ closer)) with
  | none =>
    have hc : c ≠ '\\' := fun heq => h.plain (heq ▸ List.mem_cons_self ..)
    exact .inl (Closer.passed_of_ne hlength hc)
  | some m =>
    have hhere : closer <+: c :: rest ++ closer := prefix_of_length? hlength
    obtain ⟨d, others, hsplit⟩ := List.exists_cons_of_ne_nil hcloser
    obtain rfl : d = c := by
      obtain ⟨after, hafter⟩ := hhere
      rw [hsplit] at hafter
      exact (List.cons.inj hafter).1
    rcases h.passable 0 (Nat.succ_pos _) hhere with hone | hbalanced
    · left
      obtain rfl : others = [] := by
        rw [hsplit] at hone
        exact List.length_eq_zero_iff.1 (Nat.succ_inj.1 hone)
      have hspelled : (Closer.delimiter closer).IsSpelled [d] := hsplit.symm
      exact Closer.passed_of_isSpelled hspelled (rest ++ closer)
    · obtain ⟨tail, htail⟩ := h.exists_append (List.cons_ne_nil _ _) hhere hbalanced
      rw [hsplit] at htail
      exact .inr ⟨hbalanced, others, tail, hsplit, (List.cons.inj htail).2⟩

theorem IsBody.step (hcloser : closer ≠ []) (h : IsBody closer depth (c :: rest)) :
    ∃ (part tail : List Char) (depth' : Nat), c :: rest = part ++ tail ∧ part ≠ [] ∧
      (depth' : Int) = depth + surplus part ∧
      closing? (.delimiter closer) depth (c :: rest ++ closer) =
        (closing? (.delimiter closer) depth' (tail ++ closer)).map fun cut =>
          { cut with body := part ++ cut.body } := by
  rw [List.cons_append, closing?_cons h.length?_eq_none]
  rcases h.passed hcloser with hpassed | ⟨hbalanced, others, tail, hsplit, rfl⟩
  · refine ⟨[c], rest, _, rfl, List.cons_ne_nil _ _, depthAfter_singleton (h.nonneg 1), ?_⟩
    rw [hpassed, List.take_zero, List.drop_zero]
  · have hspelled : (Closer.delimiter closer).IsSpelled (c :: others) := hsplit.symm
    refine ⟨closer, tail, depth, ?_, hcloser, ?_, ?_⟩
    · rw [hsplit, List.cons_append]
    · rw [hbalanced.2, Int.add_zero]
    · rw [List.append_assoc, Closer.passed_of_isSpelled hspelled, List.take_left, List.drop_left,
        ← hsplit, depthAfter_of_isBalanced hbalanced]

theorem IsBody.closing? (hcloser : closer ≠ []) (h : IsBody closer depth body) :
    closing? (.delimiter closer) depth (body ++ closer) = some ⟨body, closer, []⟩ := by
  induction hlen : body.length using Nat.strongRecOn generalizing depth body with
  | ind n ih =>
    cases body with
    | nil =>
      have hdepth : depth = 0 := by
        have hclosed := h.closed
        have hnil : surplus [] = 0 := rfl
        omega
      have hspelled : (Closer.delimiter closer).IsSpelled closer := rfl
      have hfound := Closer.length?_of_isSpelled hspelled []
      rw [List.append_nil] at hfound
      rw [List.nil_append, closing?_of_closer ((if_pos hdepth).trans hfound), List.take_length,
        List.drop_length]
    | cons c rest =>
      obtain ⟨part, tail, depth', hsplit, hne, hdepth, hstep⟩ := h.step hcloser
      have hlt : tail.length < n := by
        have hpos := List.length_pos_iff.2 hne
        rw [hsplit, List.length_append] at hlen
        omega
      rw [hsplit] at h
      rw [hstep, ih _ hlt (h.skip hdepth) rfl, hsplit]
      rfl

/-! ### One pair of delimiters -/

/-- In the body and the closer behind it, the closer begins outside braces behind the body only. -/
def ClosesOnlyAtEnd (closer body : List Char) : Prop :=
  ∀ p < (body ++ closer).length, closer <+: (body ++ closer).drop p →
    surplus ((body ++ closer).take p) = 0 → p = body.length

/-- Where the closer begins in the body, passing over it loses no brace: it is one character or is
balanced itself. -/
def IsPassable (closer body : List Char) : Prop :=
  ∀ p < body.length, closer <+: (body ++ closer).drop p → closer.length = 1 ∨ IsBalanced closer

instance (closer body : List Char) : Decidable (ClosesOnlyAtEnd closer body) :=
  inferInstanceAs (Decidable (∀ p < _, _ → _ → _))

instance (closer body : List Char) : Decidable (IsPassable closer body) :=
  inferInstanceAs (Decidable (∀ p < _, _ → _))

theorem isBody_of_isBalanced (hbody : '\\' ∉ body) (hbalanced : IsBalanced body)
    (honly : ClosesOnlyAtEnd closer body) (hpassable : IsPassable closer body) :
    IsBody closer 0 body := by
  refine ⟨hbody, fun p => ?_, ?_, fun p hp hhere => ?_, hpassable⟩
  · simpa using hbalanced.nonneg p
  · simpa using hbalanced.2
  · have hnonneg := hbalanced.nonneg p
    have hne : surplus (body.take p) ≠ 0 := by
      intro hzero
      rw [← List.take_append_of_le_length (Nat.le_of_lt hp)] at hzero
      have hwithin : p < (body ++ closer).length := by
        rw [List.length_append]
        omega
      rw [honly p hwithin hhere hzero] at hp
      exact Nat.lt_irrefl _ hp
    omega

theorem opening?_of_pairs {delims : Delimiters} {opener closer : String} {display : Bool}
    (hpairs : delims.pairs = [((opener, closer), display)]) (hopener : opener ≠ "") (t : List Char) :
    delims.opening? (opener.toList ++ t) =
      some (.math closer.toList display, opener.length - 1) := by
  have hopeners : delims.openers = [opener] := by
    rw [openers, hpairs]
    exact List.mergeSort_singleton _
  have hfound : [opener].find? (fun o => o ≠ "" && o.toList.isPrefixOf (opener.toList ++ t)) =
      some opener := by
    simp [hopener]
  have hopening : delims.opening opener = .math closer.toList display := by
    rw [opening, hpairs]
    simp
  rw [opening?, delimiterAt?, hopeners, hfound, Option.map_some, hopening]

/-- With one pair of delimiters and a body between them, balanced and without backslashes, outside
the braces of which the closer does not begin, the search finds the body and nothing else.  Where
the closer begins inside braces, it must be one character or be balanced itself. -/
theorem find_enclosed {delims : Delimiters} {opener closer body : String} {display : Bool}
    (hpairs : delims.pairs = [((opener, closer), display)]) (hopener : opener ≠ "")
    (hcloser : closer ≠ "") (hbody : '\\' ∉ body.toList) (hbalanced : IsBalanced body.toList)
    (honly : ClosesOnlyAtEnd closer.toList body.toList)
    (hpassable : IsPassable closer.toList body.toList) :
    delims.find [opener ++ body ++ closer] = [
      { math := body, opener, closer, string := 0, start := 0
        stop := (opener ++ body ++ closer).length, display }] := by
  have hisBody := isBody_of_isBalanced hbody hbalanced honly hpassable
  have hne : closer.toList ≠ [] := fun hnil => hcloser (String.toList_inj.1 hnil)
  have hopen := opening?_of_pairs hpairs hopener (body.toList ++ closer.toList)
  have hpos : opener.toList ≠ [] := fun hnil => hopener (String.toList_inj.1 hnil)
  have hlen : opener.toList.length = opener.length - 1 + 1 := by
    have := List.length_pos_iff.2 hpos
    rw [String.length_toList] at this ⊢
    omega
  have hseen : seen? 0 0 opener.toList (body.toList ++ closer.toList)
      (.math closer.toList display) = some (
        { math := body, opener, closer, string := 0, start := 0
          stop := (opener ++ body ++ closer).length, display }, []) := by
    have hstop : (opener ++ body ++ closer).length =
        opener.toList.length + body.toList.length + closer.toList.length := by
      simp only [String.length_append, String.length_toList]
    simp only [seen?, hisBody.closing? hne, Option.map_some, String.ofList_toList, hstop]
    push_cast
    rw [Int.zero_add]
  have htext : opener ++ body ++ closer =
      String.ofList (opener.toList ++ (body.toList ++ closer.toList)) := by
    rw [← String.toList_inj]
    simp
  have hfind := find_of_seen hopen hlen hseen
  rwa [findFrom, ← htext] at hfind

/-- A body that holds a group with the closer in it. -/
theorem find_enclosed_tags :
    let delims : Delimiters := { inline := [("\x7bm\x7d", "\x7b/\x7d")], display := [] }
    let body := "x\x7ba\x7b/\x7dy\x7d"
    let closer := "\x7b/\x7d"
    delims.pairs = [(("\x7bm\x7d", closer), false)] ∧ '\\' ∉ body.toList ∧
      IsBalanced body.toList ∧ ClosesOnlyAtEnd closer.toList body.toList ∧
      IsPassable closer.toList body.toList ∧ delims.find ["\x7bm\x7d" ++ body ++ closer] = [
        { math := body, opener := "\x7bm\x7d", closer, string := 0, start := 0
          stop := ("\x7bm\x7d" ++ body ++ closer).length, display := false }] := by
  intro delims body closer
  have hpairs : delims.pairs = [(("\x7bm\x7d", closer), false)] := rfl
  have hbody : '\\' ∉ body.toList := by decide
  have hbalanced : IsBalanced body.toList := by decide
  have honly : ClosesOnlyAtEnd closer.toList body.toList := by decide
  have hpassable : IsPassable closer.toList body.toList := by decide
  exact ⟨hpairs, hbody, hbalanced, honly, hpassable,
    find_enclosed hpairs (by decide) (by decide) hbody hbalanced honly hpassable⟩

/-- Double braces as delimiters. -/
def doubleBraces : Delimiters where
  inline := [("\x7b\x7b", "\x7d\x7d")]
  display := []
  environments := false

/-- Between double braces a group is missed, although the closer begins outside braces behind it
only: the closer that begins inside the group is passed over, and the end of the group with it. -/
theorem find_doubleBraces :
    let body := "\x7ba\x7d"
    let closer := "\x7d\x7d"
    doubleBraces.pairs = [(("\x7b\x7b", closer), false)] ∧ '\\' ∉ body.toList ∧
      IsBalanced body.toList ∧ ClosesOnlyAtEnd closer.toList body.toList ∧
      doubleBraces.find ["\x7b\x7b" ++ body ++ closer] = [] := by
  refine ⟨rfl, by decide, by decide, by decide, ?_⟩
  decide +kernel

end Delimiters

end Formulary
