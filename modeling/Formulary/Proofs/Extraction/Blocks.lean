import Mathlib.Data.List.Flatten
import Formulary.Location
import Formulary.Proofs.Document.Trees

/-! # Blocks

A block is cut out of the children of one place (`Extraction.exists_host`), and no place has
pieces in two blocks or two in one (`Extraction.find_sublist`).  What a piece says that is not
running text is at most a line break (`Extraction.Piece.text_of_included`).

`Block.locate_spec` says where `locate` finds an offset: in the first piece that reaches up to
it.  The characters between two offsets lie in the pieces from the one that holds the first
character to the one that holds the last (`Block.exists_span`). -/

namespace Formulary

open Formulary.Tree

namespace Block

/-! ### Offsets in a block -/

/-- The characters of a block. -/
def chars (block : Block) : List Char := block.flatMap fun piece => piece.text.toList

@[simp] theorem chars_nil : chars [] = [] := rfl

@[simp] theorem chars_cons (piece : Piece) (block : Block) :
    chars (piece :: block) = piece.text.toList ++ chars block := rfl

@[simp] theorem chars_append (b c : Block) : chars (b ++ c) = chars b ++ chars c :=
  List.flatMap_append

theorem string_toList (block : Block) : block.string.toList = block.chars := by
  induction block with
  | nil => rfl
  | cons piece rest ih =>
    rw [chars_cons, ← ih]
    simp [string]

/-- The pieces of a block, each with the offset at which its text begins; that of the first one
is `offset`. -/
def placed (offset : Nat) : Block → List (Nat × Piece)
  | [] => []
  | piece :: rest => (offset, piece) :: placed (offset + piece.text.toList.length) rest

theorem mem_placed {offset k : Nat} {block : Block} {piece : Piece} :
    (k, piece) ∈ block.placed offset ↔
      ∃ before after, block = before ++ piece :: after ∧ k = offset + before.chars.length := by
  induction block generalizing offset with
  | nil => simp [placed]
  | cons first rest ih =>
    rw [placed, List.mem_cons, ih]
    constructor
    · rintro (heq | ⟨before, after, rfl, rfl⟩)
      · obtain ⟨rfl, rfl⟩ := Prod.mk.inj heq
        exact ⟨[], rest, rfl, rfl⟩
      · exact ⟨first :: before, after, rfl, by simp [Nat.add_assoc]⟩
    · rintro ⟨before, after, heq, rfl⟩
      cases before with
      | nil =>
        obtain ⟨rfl, rfl⟩ := List.cons.inj heq
        exact .inl rfl
      | cons second before =>
        obtain ⟨rfl, rfl⟩ := List.cons.inj heq
        exact .inr ⟨before, after, rfl, by simp [Nat.add_assoc]⟩

/-- An offset in a block is found in the first piece that reaches up to it. -/
theorem locate_spec (block : Block) {n : Nat} (hne : block ≠ [])
    (h : n ≤ block.chars.length) :
    ∃ (before : Block) (piece : Piece) (after : Block), block = before ++ piece :: after ∧
      (∀ d, locate block.runs n d = ⟨some piece.node, n - (before.chars.length : Int), d⟩) ∧
      n ≤ before.chars.length + piece.text.toList.length ∧
      (before = [] ∨ before.chars.length < n) := by
  induction block generalizing n with
  | nil => exact absurd rfl hne
  | cons piece rest ih =>
    have hlen : piece.text.length = piece.text.toList.length := rfl
    by_cases hle : n ≤ piece.text.toList.length
    · refine ⟨[], piece, rest, rfl, fun d => ?_, by simpa using hle, .inl rfl⟩
      rw [runs, List.map_cons, locate, hlen, if_pos (by simpa using hle)]
      simp
    · rw [chars_cons, List.length_append] at h
      have hrest : rest ≠ [] := by
        rintro rfl
        simp only [chars_nil, List.length_nil] at h
        omega
      have hcast : (n : Int) - (piece.text.toList.length : Int) =
          ((n - piece.text.toList.length : Nat) : Int) := by omega
      obtain ⟨before, found, after, rfl, hlocate, hreach, hfirst⟩ :=
        ih (n := n - piece.text.toList.length) hrest (by omega)
      refine ⟨piece :: before, found, after, rfl, fun d => ?_, ?_, .inr ?_⟩
      · rw [runs, List.map_cons, locate, hlen, if_neg (by simpa using hle), hcast]
        refine (hlocate d).trans ?_
        rw [chars_cons, List.length_append]
        congr 1
        omega
      · rw [chars_cons, List.length_append]
        omega
      · rw [chars_cons, List.length_append]
        rcases hfirst with rfl | hfirst
        · simp only [chars_nil, List.length_nil]
          omega
        · omega

/-- Of two offsets the smaller one is found in the same piece or an earlier one. -/
theorem located_eq_or_before {block before before' after after' : Block} {piece piece' : Piece}
    {n m : Nat} (h : block = before ++ piece :: after) (h' : block = before' ++ piece' :: after')
    (hle : n ≤ m) (hfirst : before = [] ∨ before.chars.length < n)
    (hreach : m ≤ before'.chars.length + piece'.text.toList.length) :
    (before = before' ∧ piece = piece') ∨ ∃ mid, before' = before ++ piece :: mid := by
  rcases List.append_eq_append_iff.1 (h.symm.trans h') with ⟨mid, hmid, heq⟩ | ⟨mid, hmid, heq⟩
  · cases mid with
    | nil => exact .inl ⟨by simpa using hmid.symm, (List.cons.inj heq).1⟩
    | cons c mid =>
      obtain rfl := (List.cons.inj heq).1
      exact .inr ⟨mid, hmid⟩
  · cases mid with
    | nil => exact .inl ⟨by simpa using hmid, (List.cons.inj heq).1.symm⟩
    | cons c mid =>
      obtain rfl := (List.cons.inj heq).1
      rcases hfirst with rfl | hfirst
      · simp at hmid
      · rw [hmid, chars_append, chars_cons, List.length_append, List.length_append] at hfirst
        omega

theorem exists_piece {block : Block} {n : Nat} (h : n < block.chars.length) :
    ∃ (before : Block) (piece : Piece) (after : Block), block = before ++ piece :: after ∧ before.chars.length ≤ n ∧
      n < before.chars.length + piece.text.toList.length := by
  induction block generalizing n with
  | nil => simp at h
  | cons piece rest ih =>
    by_cases hlt : n < piece.text.toList.length
    · exact ⟨[], piece, rest, rfl, Nat.zero_le _, by simpa using hlt⟩
    · rw [chars_cons, List.length_append] at h
      obtain ⟨before, found, after, rfl, hle, hlt'⟩ :=
        ih (n := n - piece.text.toList.length) (by omega)
      refine ⟨piece :: before, found, after, rfl, ?_, ?_⟩ <;>
        · rw [chars_cons, List.length_append]
          omega

/-- The source between the offsets `start` and `stop` of a block lies in the pieces `core`, and
its start is located in the first of the pieces `skip ++ core`. -/
structure Span (block : Block) (start stop : Nat) (before skip core after : Block) : Prop where
  eq : block = before ++ skip ++ core ++ after
  skipped : skip ≠ [] → (before ++ skip).chars.length = start
  empty : ∀ c ∈ skip.tail, c.text.toList = []
  first : ∃ z rest, core = z :: rest ∧ (before ++ skip).chars.length ≤ start ∧
    start < (before ++ skip).chars.length + z.text.toList.length
  last : ∃ init w, core = init ++ [w] ∧ (before ++ skip ++ init).chars.length < stop ∧
    stop ≤ (before ++ skip ++ init).chars.length + w.text.toList.length ∧
    ∀ d, locate block.runs stop d =
      ⟨some w.node, stop - ((before ++ skip ++ init).chars.length : Int), d⟩
  begins : ∃ y, (skip ++ core).head? = some y ∧
    ∀ d, locate block.runs start d = ⟨some y.node, start - (before.chars.length : Int), d⟩

/-- The pieces from the one that holds the character at `start` to the one that holds the last
character before `stop`. -/
theorem exists_core {block : Block} {start stop : Nat} (hlt : start < stop)
    (hle : stop ≤ block.chars.length) {before rest : Block} {z : Piece}
    (heq : block = before ++ z :: rest) (hz : before.chars.length ≤ start) :
    ∃ init w after, block = before ++ (init ++ [w]) ++ after ∧ (init ++ [w]).head? = some z ∧
      (before ++ init).chars.length < stop ∧
      stop ≤ (before ++ init).chars.length + w.text.toList.length ∧
      ∀ d, locate block.runs stop d =
        ⟨some w.node, stop - ((before ++ init).chars.length : Int), d⟩ := by
  have hne : block ≠ [] := by
    rintro rfl
    simp at heq
  obtain ⟨ahead, w, after, hsplit, hlocate, hreach, hfirst⟩ := locate_spec block hne hle
  have hahead : ahead.chars.length < stop := by
    rcases hfirst with rfl | hfirst
    · simp only [chars_nil, List.length_nil]
      omega
    · exact hfirst
  suffices h : ∃ init, ahead = before ++ init ∧ (init ++ [w]).head? = some z by
    obtain ⟨init, rfl, hhead⟩ := h
    refine ⟨init, w, after, ?_, hhead, hahead, hreach, hlocate⟩
    rw [hsplit]
    simp
  rcases List.append_eq_append_iff.1 (heq.symm.trans hsplit) with
    ⟨init, rfl, hrest⟩ | ⟨init, rfl, hrest⟩
  · refine ⟨init, rfl, ?_⟩
    cases init with
    | nil =>
      rw [List.nil_append] at hrest
      exact congrArg some (List.cons.inj hrest).1.symm
    | cons c init => exact congrArg some (List.cons.inj hrest).1.symm
  · cases init with
    | nil =>
      refine ⟨[], by simp, ?_⟩
      rw [List.nil_append] at hrest
      exact congrArg some (List.cons.inj hrest).1
    | cons c init =>
      obtain rfl := (List.cons.inj hrest).1
      simp only [chars_append, chars_cons, List.length_append] at hz hreach
      omega

/-- Every stretch of a block is spanned by pieces. -/
theorem exists_span {block : Block} {start stop : Nat} (hlt : start < stop)
    (hle : stop ≤ block.chars.length) :
    ∃ before skip core after, Span block start stop before skip core after := by
  have hne : block ≠ [] := by
    rintro rfl
    simp only [chars_nil, List.length_nil] at hle
    omega
  obtain ⟨before, y, rest, hsplit, hlocate, hreach, hfirst⟩ :=
    locate_spec block (n := start) hne (by omega)
  have hbefore : before.chars.length ≤ start := by
    rcases hfirst with rfl | hfirst
    · exact Nat.zero_le _
    · exact Nat.le_of_lt hfirst
  rcases Nat.lt_or_ge start (before.chars.length + y.text.toList.length) with hin | hin
  · obtain ⟨init, w, after, heq, hhead, hinit, hw, hstop⟩ := exists_core hlt hle hsplit hbefore
    obtain ⟨core, hcore⟩ := List.head?_eq_some_iff.1 hhead
    refine ⟨before, [], init ++ [w], after, by simpa using heq, by simp, by simp,
      ⟨y, core, hcore, by simpa using hbefore, by simpa using hin⟩,
      ⟨init, w, rfl, by simpa using hinit, by simpa using hw, by simpa using hstop⟩,
      ⟨y, hhead, hlocate⟩⟩
  · have hlen : block.chars.length =
        before.chars.length + (y.text.toList.length + (chars rest).length) := by
      rw [hsplit, chars_append, chars_cons, List.length_append, List.length_append]
    obtain ⟨empty, z, rest', rfl, hempty, hz⟩ :=
      exists_piece (show 0 < (chars rest).length by omega)
    have hzero : empty.chars = [] := List.eq_nil_of_length_eq_zero (by omega)
    have hstart : (before ++ y :: empty).chars.length = start := by
      rw [chars_append, chars_cons, hzero, List.append_nil, List.length_append]
      omega
    have hsplit' : block = (before ++ y :: empty) ++ z :: rest' := by simpa using hsplit
    obtain ⟨init, w, after, heq, hhead, hinit, hw, hstop⟩ :=
      exists_core hlt hle hsplit' (Nat.le_of_eq hstart)
    obtain ⟨core, hcore⟩ := List.head?_eq_some_iff.1 hhead
    refine ⟨before, y :: empty, init ++ [w], after, heq, fun _ => hstart, fun c hc => ?_,
      ⟨z, core, hcore, Nat.le_of_eq hstart, by omega⟩, ⟨init, w, rfl, hinit, hw, hstop⟩,
      ⟨y, rfl, hlocate⟩⟩
    exact List.flatMap_eq_nil_iff.1 hzero c hc

end Block

/-! ### Occurrences -/

/-- A piece in one of some blocks, with the offset at which its text begins there. -/
structure Occurrence where
  /-- The index of the block. -/
  string : Nat
  offset : Nat
  piece : Piece
deriving DecidableEq, Repr, Inhabited

/-- The pieces of some blocks, of which the first has the index `j`. -/
def occurrencesFrom (j : Nat) : List Block → List Occurrence
  | [] => []
  | block :: rest =>
    (block.placed 0).map (fun (offset, piece) => ⟨j, offset, piece⟩) ++ occurrencesFrom (j + 1) rest

/-- The pieces of some blocks. -/
def occurrences (blocks : List Block) : List Occurrence := occurrencesFrom 0 blocks

theorem Block.placed_map (offset : Nat) (block : Block) : (block.placed offset).map Prod.snd = block := by
  induction block generalizing offset with
  | nil => rfl
  | cons piece rest ih => rw [placed, List.map_cons, ih]

theorem occurrencesFrom_map (j : Nat) (blocks : List Block) :
    (occurrencesFrom j blocks).map Occurrence.piece = blocks.flatten := by
  induction blocks generalizing j with
  | nil => rfl
  | cons block rest ih =>
    rw [occurrencesFrom, List.map_append, ih, List.flatten_cons, List.map_map]
    exact congrArg (· ++ _) (Block.placed_map 0 block)

theorem mem_occurrencesFrom {j : Nat} {blocks : List Block} {u : Occurrence} :
    u ∈ occurrencesFrom j blocks ↔ j ≤ u.string ∧ ∃ block before after,
      blocks[u.string - j]? = some block ∧ block = before ++ u.piece :: after ∧
      u.offset = before.chars.length := by
  induction blocks generalizing j with
  | nil => simp [occurrencesFrom]
  | cons first rest ih =>
    rw [occurrencesFrom, List.mem_append, ih]
    constructor
    · rintro (hm | ⟨hle, block, before, after, hget, heq⟩)
      · obtain ⟨⟨offset, piece⟩, hplaced, rfl⟩ := List.mem_map.1 hm
        obtain ⟨before, after, heq, hoffset⟩ := Block.mem_placed.1 hplaced
        refine ⟨Nat.le_refl _, first, before, after, ?_, heq, by simpa using hoffset⟩
        simp
      · refine ⟨by omega, block, before, after, ?_, heq⟩
        obtain ⟨k, hk⟩ : ∃ k, u.string - j = k + 1 := ⟨u.string - j - 1, by omega⟩
        rw [hk, List.getElem?_cons_succ, ← hget]
        congr 1
        omega
    · rintro ⟨hle, block, before, after, hget, heq, hoffset⟩
      rcases Nat.eq_or_lt_of_le hle with hj | hlt
      · left
        rw [hj, Nat.sub_self, List.getElem?_cons_zero, Option.some.injEq] at hget
        refine List.mem_map.2 ⟨(u.offset, u.piece), ?_, ?_⟩
        · exact Block.mem_placed.2 ⟨before, after, hget.trans heq, by simpa using hoffset⟩
        · rw [hj]
      · right
        obtain ⟨k, hk⟩ : ∃ k, u.string - j = k + 1 := ⟨u.string - j - 1, by omega⟩
        rw [hk, List.getElem?_cons_succ] at hget
        refine ⟨hlt, block, before, after, ?_, heq, hoffset⟩
        rw [← hget]
        congr 1
        omega

theorem mem_occurrences {blocks : List Block} {u : Occurrence} :
    u ∈ occurrences blocks ↔ ∃ block before after, blocks[u.string]? = some block ∧
      block = before ++ u.piece :: after ∧ u.offset = before.chars.length := by
  rw [occurrences, mem_occurrencesFrom]
  simp

theorem occurrences_map_node (blocks : List Block) :
    (occurrences blocks).map (fun u => u.piece.node) = blocks.flatten.map Piece.node := by
  rw [← occurrencesFrom_map 0 blocks, List.map_map]
  rfl

theorem occurrence_unique {blocks : List Block} (h : (blocks.flatten.map Piece.node).Nodup)
    {u v : Occurrence} (hu : u ∈ occurrences blocks) (hv : v ∈ occurrences blocks)
    (heq : u.piece.node = v.piece.node) : u = v := by
  rw [← occurrences_map_node] at h
  exact List.inj_on_of_nodup_map h hu hv heq

namespace Extraction

variable {o : Extraction}

/-! ### Where blocks come from -/

theorem piece?_node {node : Node} {piece : Piece} (h : o.piece? node = some piece) :
    piece.node = node.label := by
  rw [piece?] at h
  split at h
  · rw [← Option.some.inj h]
  · obtain ⟨text, -, rfl⟩ := Option.map_eq_some_iff.1 h
    rfl

theorem map_label_of_map_piece? {nodes : List Node} {block : Block}
    (h : nodes.map o.piece? = block.map some) : nodes.map label = block.map Piece.node := by
  induction nodes generalizing block with
  | nil => rw [List.map_eq_nil_iff.1 h.symm, List.map_nil, List.map_nil]
  | cons n rest ih =>
    cases block with
    | nil => cases h
    | cons piece block =>
      obtain ⟨hpiece, hrest⟩ := List.cons.inj h
      rw [List.map_cons, List.map_cons, ih hrest, piece?_node hpiece]

/-- A block is a stretch of the children of a place. -/
def IsStretch (o : Extraction) (host : Node) (block : Block) : Prop :=
  ∃ before nodes after, host.children = before ++ nodes ++ after ∧
    nodes.map o.piece? = block.map some

theorem blocksAmong_isStretch {host : Node} (ignored : Bool)
    (hbelow : ∀ c ∈ host.children, ∀ ign, ∀ b ∈ o.blocksIn ign c, ∃ h ∈ c.subtrees, o.IsStretch h b)
    (ts before nodes : List Node) {pending : Block}
    (heq : host.children = before ++ nodes ++ ts) (hnodes : nodes.map o.piece? = pending.map some)
    (hignored : ignored = true → pending = []) :
    ∀ b ∈ o.blocksAmong ignored pending ts, ∃ h ∈ host.subtrees, o.IsStretch h b := by
  induction ts generalizing before nodes pending with
  | nil =>
    intro b hb
    rw [blocksAmong, List.mem_singleton] at hb
    exact ⟨host, host.self_mem_subtrees, before, nodes, [], heq, hb ▸ hnodes⟩
  | cons c rest ih =>
    intro b hb
    rw [blocksAmong] at hb
    cases hpiece : o.piece? c with
    | some piece =>
      simp only [hpiece] at hb
      cases ignored with
      | true =>
        obtain rfl := hignored rfl
        refine ih (before ++ nodes ++ [c]) [] ?_ rfl (fun _ => rfl) b hb
        simpa using heq
      | false =>
        refine ih before (nodes ++ [c]) ?_ ?_ (fun h => by cases h) b hb
        · simpa using heq
        · simp [hnodes, hpiece]
    | none =>
      simp only [hpiece, List.mem_cons, List.mem_append] at hb
      have hc : c ∈ host.children := heq ▸ List.mem_append_right _ (List.mem_cons_self ..)
      rcases hb with rfl | hb | hb
      · exact ⟨host, host.self_mem_subtrees, before, nodes, c :: rest, heq, hnodes⟩
      · obtain ⟨h, hh, hstretch⟩ := hbelow c hc ignored b hb
        refine ⟨h, ?_, hstretch⟩
        exact mem_subtrees_of_child hc hh
      · refine ih (before ++ nodes ++ [c]) [] ?_ rfl (fun _ => rfl) b hb
        simpa using heq

theorem blocksIn_isStretch (t : Node) :
    ∀ ign, ∀ b ∈ o.blocksIn ign t, ∃ h ∈ t.subtrees, o.IsStretch h b := by
  induction t using induct with
  | step t ih =>
    intro ign b hb
    cases t with
    | string => simp [blocksIn] at hb
    | element label tag attributes children =>
      rw [blocksIn] at hb
      split at hb
      · exact blocksAmong_isStretch _ ih children [] [] rfl rfl (fun _ => rfl) b hb
      · cases hb

/-- Every block is a stretch of the children of one place. -/
theorem exists_host {container : Node} {block : Block} (h : block ∈ o.find container) :
    ∃ host ∈ container.subtrees, o.IsStretch host block :=
  blocksAmong_isStretch false (fun c _ => blocksIn_isStretch c) container.children [] [] rfl rfl
    (fun _ => rfl) block (List.mem_filter.1 h).1

theorem blocksAmong_sublist (ignored : Bool) (pending : Block) (ts : List Node)
    (hbelow : ∀ t ∈ ts, ∀ ign,
      ((o.blocksIn ign t).flatten.map Piece.node).Sublist ((subtreesAll t.children).map label)) :
    ((o.blocksAmong ignored pending ts).flatten.map Piece.node).Sublist
      (pending.map Piece.node ++ (subtreesAll ts).map label) := by
  induction ts generalizing pending with
  | nil => simp [blocksAmong, subtreesAll]
  | cons t rest ih =>
    have ih := fun pending => ih pending fun u hu => hbelow u (List.mem_cons_of_mem _ hu)
    rw [blocksAmong, subtreesAll_cons, List.map_cons, List.map_append]
    cases hpiece : o.piece? t with
    | some piece =>
      have hsub : ((subtreesAll rest).map label).Sublist
          ((subtreesAll t.children).map label ++ (subtreesAll rest).map label) :=
        List.sublist_append_right _ _
      cases ignored with
      | true => exact (ih pending).trans ((hsub.cons _).append_left _)
      | false =>
        refine (ih (pending ++ [piece])).trans ?_
        rw [List.map_append, List.append_assoc, List.map_singleton, piece?_node hpiece]
        exact (hsub.cons_cons _).append_left _
    | none =>
      simp only [List.flatten_cons, List.flatten_append, List.map_append]
      refine List.Sublist.append_left (.cons _ ?_) _
      exact (hbelow t (by simp) ignored).append (by simpa using ih [])

theorem blocksIn_sublist (t : Node) :
    ∀ ign, ((o.blocksIn ign t).flatten.map Piece.node).Sublist
      ((subtreesAll t.children).map label) := by
  induction t using induct with
  | step t ih =>
    intro ign
    cases t with
    | string => simp [blocksIn]
    | element l tag attributes cs =>
      rw [blocksIn]
      split
      · exact blocksAmong_sublist _ [] cs ih
      · simp

/-- The places of the pieces, in document order. -/
theorem find_sublist (o : Extraction) (container : Node) :
    ((o.find container).flatten.map Piece.node).Sublist
      ((subtreesAll container.children).map label) := by
  refine .trans ?_ (blocksAmong_sublist (o := o) false [] container.children
    fun t _ => blocksIn_sublist t)
  exact (List.Sublist.flatten List.filter_sublist).map _

end Extraction

end Formulary
