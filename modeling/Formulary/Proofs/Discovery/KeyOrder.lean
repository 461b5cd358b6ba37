import Mathlib.Data.List.Pairwise
import Formulary.Order

/-! # Lists in the order of keys

Keys are compared from the left, which orders them totally (`Key.le_total`, `Key.le_trans`).
Merging keeps a list in this order and loses nothing (`mergeByKey_pairwise`,
`mergeByKey_perm`), so things with different keys end up in one order only
(`KeySorted.eq_of_perm`).

Things with one key keep their order.  A list that is sorted so is determined by the things in the
order in which they were (`IsStableSort.unique`), and a merge into such a list gives another one
(`IsStableSort.merge`). -/

namespace Formulary

namespace Key

variable {a b c : Key}

theorem le_iff : Key.le a b = true ↔ ¬ b < a := by simp [Key.le]

theorem le_trans (hab : Key.le a b = true) (hbc : Key.le b c = true) : Key.le a c = true :=
  le_iff.2 (List.le_trans (le_iff.1 hab) (le_iff.1 hbc))

theorem le_total (a b : Key) : Key.le a b || Key.le b a := by
  rw [Bool.or_eq_true, le_iff, le_iff]
  exact List.le_total a b

theorem le_refl (a : Key) : Key.le a a = true := le_iff.2 (List.lt_irrefl a)

theorem le_antisymm (hab : Key.le a b = true) (hba : Key.le b a = true) : a = b := by
  rcases List.le_iff_lt_or_eq.1 (le_iff.1 hab) with hlt | heq
  · exact absurd hlt (le_iff.1 hba)
  · exact heq

/-- Where keys follow other things in each of the three ways in which those can stand, they say how
those stand. -/
theorem trichotomy {lt eq gt : Prop} (h : lt ∨ eq ∨ gt) (hlt : lt → a < b) (heq : eq → a = b)
    (hgt : gt → b < a) : (a < b ↔ lt) ∧ (a = b ↔ eq) := by
  refine ⟨⟨fun hab => ?_, hlt⟩, ⟨fun hab => ?_, heq⟩⟩
  · refine h.resolve_right ?_
    rintro (he | hg)
    · exact List.lt_irrefl b (heq he ▸ hab)
    · exact List.lt_asymm hab (hgt hg)
  · subst hab
    rcases h with hl | he | hg
    · exact absurd (hlt hl) (List.lt_irrefl a)
    · exact he
    · exact absurd (hgt hg) (List.lt_irrefl a)

theorem triple_lt {i m n k l : Int} :
    ([i, m, k] : Key) < [i, n, l] ↔ m < n ∨ m = n ∧ k < l := by
  simp [List.cons_lt_cons_iff]

end Key

section

variable {α β : Type} {key : α → Key}

theorem key_trans (key : α → Key) :
    ∀ a b c, (key a).le (key b) = true → (key b).le (key c) = true → (key a).le (key c) = true :=
  fun _ _ _ => Key.le_trans

theorem key_total (key : α → Key) : ∀ a b, (key a).le (key b) || (key b).le (key a) :=
  fun _ _ => Key.le_total _ _

/-- Things that come in order of their keys, no two of them with one key. -/
def KeySorted (key : α → Key) (things : List α) : Prop :=
  things.Pairwise fun a b => key a < key b

/-- There is one order only. -/
theorem KeySorted.eq_of_perm {things others : List α} (h : KeySorted key things)
    (h' : KeySorted key others) (hperm : things.Perm others) : things = others :=
  List.Perm.eq_of_pairwise (fun _ _ _ _ hab hba => absurd hba (List.lt_asymm hab)) h h' hperm

theorem KeySorted.of_le {things : List α}
    (hle : things.Pairwise fun a b => (key a).le (key b) = true) (hnodup : (things.map key).Nodup) :
    KeySorted key things := by
  have hne : things.Pairwise fun a b => key a ≠ key b := List.pairwise_map.1 hnodup
  refine (hle.and hne).imp fun ⟨hab, hneq⟩ => ?_
  rcases List.le_iff_lt_or_eq.1 (Key.le_iff.1 hab) with hlt | heq
  · exact hlt
  · exact absurd heq hneq

theorem mergeByKey_perm (own incoming : List α) :
    (mergeByKey key own incoming).Perm (own ++ incoming) :=
  (List.merge_perm_append _).trans ((List.mergeSort_perm _ _).append_left _)

theorem mergeByKey_pairwise {own : List α} (h : own.Pairwise fun a b => (key a).le (key b) = true)
    (incoming : List α) :
    (mergeByKey key own incoming).Pairwise fun a b => (key a).le (key b) = true :=
  List.pairwise_merge (key_trans key) (key_total key) own _ h
    (List.pairwise_mergeSort (key_trans key) (key_total key) incoming)

theorem mergeByKey_map {f : α → β} {key : β → Key} (own incoming : List α) :
    mergeByKey key (own.map f) (incoming.map f) =
      (mergeByKey (fun a => key (f a)) own incoming).map f := by
  have hmap : (incoming.mergeSort fun a b => (key (f a)).le (key (f b))).map f =
      (incoming.map f).mergeSort fun a b => (key a).le (key b) :=
    List.map_mergeSort fun _ _ _ _ => rfl
  rw [mergeByKey, sortByKey, ← hmap, mergeByKey, sortByKey]
  symm
  apply List.map_merge
  exact fun _ _ _ _ => rfl

/-! ### Stable sorts -/

variable {things sorted sorted' : List α}

/-- A list in the order of keys of the things of another one, where those of one key keep their
order. -/
structure IsStableSort (key : α → Key) (things sorted : List α) : Prop where
  ordered : sorted.Pairwise fun a b => (key a).le (key b) = true
  ties : ∀ k, sorted.filter (fun a => key a = k) = things.filter (fun a => key a = k)

theorem IsStableSort.perm (h : IsStableSort key things sorted) : sorted.Perm things := by
  classical
  refine List.perm_iff_count.2 fun a => ?_
  have hcount := congrArg (List.count a) (h.ties (key a))
  rwa [List.count_filter (by simp), List.count_filter (by simp)] at hcount

theorem key_le_of_mem {a b : α} {rest : List α}
    (h : (a :: rest).Pairwise fun a b => (key a).le (key b) = true) (hb : b ∈ a :: rest) :
    (key a).le (key b) = true := by
  rcases List.mem_cons.1 hb with rfl | hb
  · exact Key.le_refl _
  · exact List.rel_of_pairwise_cons h hb

/-- There is one stable sort only. -/
theorem IsStableSort.unique (h : IsStableSort key things sorted)
    (h' : IsStableSort key things sorted') : sorted = sorted' := by
  have hperm := h.perm.trans h'.perm.symm
  have hties : ∀ k, sorted.filter (fun a => key a = k) = sorted'.filter (fun a => key a = k) :=
    fun k => (h.ties k).trans (h'.ties k).symm
  have hle := h.ordered
  have hle' := h'.ordered
  clear h h'
  induction sorted generalizing sorted' with
  | nil => exact hperm.nil_eq
  | cons a rest ih =>
    cases sorted' with
    | nil => exact absurd hperm.symm (List.not_perm_nil_cons _ _)
    | cons b rest' =>
      -- both heads have the smallest key, so both are the first thing that has it
      have hkey : key a = key b :=
        Key.le_antisymm (key_le_of_mem hle (hperm.symm.subset (List.mem_cons_self ..)))
          (key_le_of_mem hle' (hperm.subset (List.mem_cons_self ..)))
      have hhead := hties (key b)
      simp only [hkey, decide_true, List.filter_cons_of_pos] at hhead
      obtain rfl : a = b := (List.cons.inj hhead).1
      refine congrArg (a :: ·) (ih hperm.cons_inv (fun k => ?_) hle.of_cons hle'.of_cons)
      have hk := hties k
      by_cases hak : key a = k
      · simpa [hak] using hk
      · simpa [hak] using hk

/-- A merge takes the things of one key from both lists in turn. -/
theorem filter_merge (k : Key) {own incoming : List α}
    (h : own.Pairwise fun a b => (key a).le (key b) = true)
    (h' : incoming.Pairwise fun a b => (key a).le (key b) = true) :
    (List.merge own incoming fun a b => (key a).le (key b)).filter (fun a => key a = k) =
      own.filter (fun a => key a = k) ++ incoming.filter (fun a => key a = k) := by
  induction own generalizing incoming with
  | nil => simp
  | cons a rest ih =>
    induction incoming with
    | nil => simp
    | cons b rest' ih' =>
      rw [List.cons_merge_cons]
      by_cases hle : (key a).le (key b) = true
      · rw [if_pos hle, List.filter_cons, ih h.of_cons h']
        by_cases hak : key a = k <;> simp [hak]
      · rw [if_neg hle, List.filter_cons, ih' h'.of_cons, List.filter_cons (x := b)]
        by_cases hbk : key b = k
        · -- everything in the first list comes after `b`, so nothing in it has the key of `b`
          have hnone : (a :: rest).filter (fun c => key c = k) = [] := by
            refine List.filter_eq_nil_iff.2 fun c hc hck => hle ?_
            have hac := key_le_of_mem h hc
            rw [hbk, ← of_decide_eq_true hck]
            exact hac
          rw [hnone]
          simp
        · simp [hbk]

theorem sortByKey_isStableSort (things : List α) : IsStableSort key things (sortByKey key things) := by
  refine ⟨List.pairwise_mergeSort (key_trans key) (key_total key) things, fun k => ?_⟩
  have hties : (things.filter fun a => key a = k).Pairwise fun a b => (key a).le (key b) = true := by
    refine List.pairwise_of_forall_mem_list fun a ha b hb => ?_
    have ha := of_decide_eq_true (List.mem_filter.1 ha).2
    have hb := of_decide_eq_true (List.mem_filter.1 hb).2
    rw [ha, hb]
    exact Key.le_refl k
  have hsub := (List.sublist_mergeSort (key_trans key) (key_total key) hties
    List.filter_sublist).filter fun a => key a = k
  simp only [List.filter_filter, Bool.and_self] at hsub
  have hperm := (List.mergeSort_perm things fun a b => (key a).le (key b)).filter
    fun a => key a = k
  exact (hsub.eq_of_length hperm.symm.length_eq).symm

/-- Merging into a stable sort gives the stable sort with the incoming things at the end. -/
theorem IsStableSort.merge {own : List α} (h : IsStableSort key things own) (incoming : List α) :
    IsStableSort key (things ++ incoming) (mergeByKey key own incoming) where
  ordered := mergeByKey_pairwise h.ordered incoming
  ties k := by
    have hsorted : IsStableSort key incoming (sortByKey key incoming) :=
      sortByKey_isStableSort incoming
    rw [mergeByKey, filter_merge k h.ordered hsorted.ordered, h.ties, hsorted.ties, List.filter_append]

end

end Formulary
