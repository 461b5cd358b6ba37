import Formulary.Proofs.Rediscovery.SecondRender
import Formulary.Proofs.Session.ItemHistory

/-! # What becomes of the items of a session

`Watched` is a session that keeps accounts: for every item that was found since the last reset, what
it was when it was found, what it is now, and with which error it left the list if it did.  What
comes of reading is written down as the session reports it.  The accounts do not change what the
session does (`Watched.call_session`).  How often the source of an item was read is noted in the
item by reading it.

The items of the session are those of the accounts without an error, in order, and its errors are
the others (`Watched.IsKept`).  Every call keeps that, and takes no item back but from the document
(`Watched.call_kept`), so it holds after all calls (`calls_accounted`). -/

namespace Formulary

open Document

/-! ### Accounts -/

/-- What became of an item that was found. -/
structure Account where
  /-- The item when it was found. -/
  found : Item
  /-- The item now. -/
  item : Item := found
  /-- The error with which the item left the list. -/
  error : Option TexError := none

/-- What a report says that became of an item that was read. -/
def Report.outcome? : Report → Option (Item × Option TexError)
  | .compiled item e => some (item, e)
  | .log _ | .error _ => none

/-- What the session has reported since it was `before`. -/
def Session.news (before s : Session) : List Report := s.reports.drop before.reports.length

namespace Account

/-- Whether the item is in the list. -/
def isListed (a : Account) : Bool := a.error.isNone

/-- The item with its error, if it left the list. -/
def failure? (a : Account) : Option (Item × TexError) := a.error.map fun e => (a.item, e)

/-- The accounts with what became of the items, as far as it is told. -/
def hear : List Account → List (Item × Option TexError) → List Account
  | a :: rest, (item, error) :: outcomes => { a with item, error } :: hear rest outcomes
  | accounts, _ => accounts

/-- The items of some accounts that are in the list. -/
def listed (accounts : List Account) : List Item := (accounts.filter isListed).map item

/-- The accounts with new versions of the items that are in the list. -/
def refill : List Account → List Item → List Account
  | [], _ => []
  | a :: rest, items =>
    if a.isListed then
      match items with
      | [] => a :: rest
      | item :: items => { a with item } :: refill rest items
    else a :: refill rest items

end Account

/-- A session that keeps accounts. -/
structure Watched where
  session : Session
  /-- What the sources reported since the last reset. -/
  reported : List Item := []
  accounts : List Account := []

namespace Watched

/-- The items that are found are new in the accounts, if the session reports a discovery. -/
def discover (w : Watched) (containers : Option (List NodeId)) : Except Fault Watched :=
  (w.session.discover containers).map fun session =>
    if (w.session.news session).isEmpty then { w with session }
    else
      let doc := w.session.document
      let places := (containers.or w.session.containers).getD [doc.body]
      let reported := itemsFound doc w.session.extraction w.session.sources places
      { session
        reported := reported.toOption.getD []
        accounts := session.items.map fun found => { found } }

/-- What became of the items that were read is in the accounts. -/
def compile (w : Watched) : Except Fault Watched :=
  w.session.compile.map fun session =>
    { w with
      session
      accounts := Account.hear w.accounts ((w.session.news session).filterMap Report.outcome?) }

/-- The items that are in the list have changed. -/
def refilled (w : Watched) (next : Except Fault Session) : Except Fault Watched :=
  next.map fun session => { w with session, accounts := Account.refill w.accounts session.items }

/-- The session and its accounts after a call. -/
def call (w : Watched) : Call → Except Fault Watched
  | .discover containers => w.discover containers
  | .compile => w.compile
  | .typeset => w.refilled w.session.typeset
  | .update => w.refilled w.session.update
  | .render => do
    let w ← w.discover none
    let w ← w.compile
    let w ← w.refilled w.session.typeset
    w.refilled w.session.update
  | .remove restore => w.refilled (w.session.removeFromDocument restore)
  | .reset => .ok { session := w.session.reset }

/-- The session and its accounts after some calls in turn. -/
def calls (w : Watched) : List Call → Except Fault Watched
  | [] => .ok w
  | c :: rest => do
    let w ← w.call c
    w.calls rest

/-! ### Watching changes nothing -/

theorem map_bind {α β : Type} {x : Except Fault Watched} {y : Except Fault Session}
    {f : Watched → Except Fault α} {g : Session → Except Fault β} {k : α → β}
    (hx : x.map session = y) (h : ∀ w, (f w).map k = g w.session) :
    (x >>= f).map k = y >>= g := by
  subst hx
  cases x with
  | error fault => rfl
  | ok w => exact h w

theorem discover_session (w : Watched) (containers : Option (List NodeId)) :
    (w.discover containers).map session = w.session.discover containers := by
  rw [discover]
  cases w.session.discover containers with
  | error fault => rfl
  | ok s =>
    rw [Except.map, Except.map]
    split <;> rfl

theorem compile_session (w : Watched) : w.compile.map session = w.session.compile := by
  rw [compile]
  cases w.session.compile <;> rfl

theorem refilled_session (w : Watched) (next : Except Fault Session) :
    (w.refilled next).map session = next := by
  cases next <;> rfl

/-- The session does what it does without accounts. -/
theorem call_session (w : Watched) (c : Call) : (w.call c).map session = w.session.call c := by
  cases c with
  | discover containers => exact w.discover_session containers
  | compile => exact w.compile_session
  | typeset => exact w.refilled_session _
  | update => exact w.refilled_session _
  | remove restore => exact w.refilled_session _
  | reset => rfl
  | render =>
    refine map_bind (w.discover_session none) fun w => ?_
    refine map_bind w.compile_session fun w => ?_
    exact map_bind (w.refilled_session _) fun w => w.refilled_session _

theorem calls_session (w : Watched) (cs : List Call) :
    (w.calls cs).map session = w.session.calls cs := by
  induction cs generalizing w with
  | nil => rfl
  | cons c rest ih => exact map_bind (w.call_session c) ih

end Watched

/-! ### What a call does to the accounts -/

namespace Account

variable {back : Prop} {doc : Document} {a b : Account} {accounts accounts' : List Account}
  {items : List Item}

/-- What is true of an account: the item was new when it was found, is still what it was found as,
and has not come further if it left the list.  Its source was read once at most. -/
structure IsTrue (a : Account) : Prop where
  fresh : a.found.IsNew
  history : a.found.Follows False a.item
  failed : a.error.isSome → a.item.stage = .unprocessed
  readings : a.item.readings ≤ 1

/-- An account has become another one.  With `back` the item may have been taken back out of the
document. -/
structure Follows (back : Prop) (a b : Account) : Prop where
  found : b.found = a.found
  item : a.item.Follows back b.item
  failed : a.error.isSome → b = a

/-- Nothing but the item has changed in an account, and it was not read. -/
structure Refills (back : Prop) (a b : Account) : Prop where
  follows : a.Follows back b
  error : b.error = a.error
  unread : b.item.readings = a.item.readings

theorem Follows.refl (back : Prop) (a : Account) : a.Follows back a :=
  ⟨rfl, .refl .., fun _ => rfl⟩

theorem Follows.mono {back' : Prop} (h : a.Follows back b) (himp : back → back') :
    a.Follows back' b :=
  ⟨h.found, h.item.mono himp, h.failed⟩

theorem Follows.trans {c : Account} (hab : a.Follows False b) (hbc : b.Follows back c) :
    a.Follows back c where
  found := hbc.found.trans hab.found
  item := hab.item.trans hbc.item
  failed ha := by
    obtain rfl := hab.failed ha
    exact hbc.failed ha

theorem Refills.refl (back : Prop) (a : Account) : a.Refills back a := ⟨.refl .., rfl, rfl⟩

theorem Refills.isTrue (h : a.Refills back b) (ha : a.IsTrue) : b.IsTrue where
  fresh := h.follows.found ▸ ha.fresh
  history := by
    rw [h.follows.found]
    exact (ha.history.trans h.follows.item).of_unprocessed ha.fresh.stage
  failed hb := by
    have hfailed : a.error.isSome := h.error ▸ hb
    rw [h.follows.failed hfailed]
    exact ha.failed hfailed
  readings := h.unread ▸ ha.readings

theorem map_found (h : List.Forall₂ (Follows back) accounts accounts') :
    accounts'.map found = accounts.map found := by
  induction h with
  | nil => rfl
  | cons hab _ ih => rw [List.map_cons, List.map_cons, hab.found, ih]

theorem listed_of_error_eq_none (h : ∀ a ∈ accounts, a.error = none) :
    listed accounts = accounts.map item := by
  have hall : accounts.filter isListed = accounts :=
    List.filter_eq_self.2 fun a ha => Option.isNone_iff_eq_none.2 (h a ha)
  rw [listed, hall]

/-- New versions of the items that are in the list go into the accounts of these items. -/
theorem refill_changes (h : List.Forall₂ (Item.Changes back) (listed accounts) items) :
    listed (refill accounts items) = items ∧
      (refill accounts items).filterMap failure? = accounts.filterMap failure? ∧
      List.Forall₂ (Refills back) accounts (refill accounts items) := by
  induction accounts generalizing items with
  | nil =>
    cases h
    exact ⟨rfl, rfl, .nil⟩
  | cons a rest ih =>
    cases hlisted : a.isListed with
    | false =>
      have hskip : ∀ l, listed (a :: l) = listed l := fun l => by
        rw [listed, List.filter_cons_of_neg (by simp [hlisted]), listed]
      rw [hskip] at h
      obtain ⟨hitems, herrors, hrest⟩ := ih h
      have hrefill : refill (a :: rest) items = a :: refill rest items := by
        rw [refill.eq_def]
        exact if_neg (by simp [hlisted])
      rw [hrefill, hskip, List.filterMap_cons, List.filterMap_cons, herrors]
      exact ⟨hitems, rfl, .cons (.refl ..) hrest⟩
    | true =>
      have hnone : a.error = none := Option.isNone_iff_eq_none.1 hlisted
      have htake : ∀ b l, b.error = a.error → listed (b :: l) = b.item :: listed l := fun b l hb => by
        rw [listed, List.filter_cons_of_pos (by rw [isListed, hb, hnone]; rfl), List.map_cons, listed]
      rw [htake a rest rfl] at h
      cases h with
      | @cons _ item _ items hitem h =>
        obtain ⟨hitems, herrors, hrest⟩ := ih h
        have hfailure : failure? { a with item } = none ∧ failure? a = none := by
          simp [failure?, hnone]
        rw [refill, if_pos hlisted]
        refine ⟨?_, ?_, .cons ⟨⟨rfl, hitem.toFollows, ?_⟩, rfl, hitem.unread⟩ hrest⟩
        · exact (htake { a with item } _ rfl).trans (congrArg (item :: ·) hitems)
        · rw [List.filterMap_cons, List.filterMap_cons, hfailure.1, hfailure.2, herrors]
        · intro hsome
          rw [hnone] at hsome
          cases hsome

/-- The account after reading the item. -/
def read (doc : Document) (a : Account) : Account :=
  { a with item := a.item.read doc, error := a.item.readError? doc }

theorem hear_map (doc : Document) (accounts : List Account) :
    hear accounts (accounts.map fun a => (a.item.read doc, a.item.readError? doc)) =
      accounts.map (read doc) := by
  induction accounts with
  | nil => rfl
  | cons a rest ih => exact congrArg (_ :: ·) ih

theorem read_spec (ha : a.IsTrue) (hlisted : a.error = none) (hunread : a.item.readings = 0) :
    (a.read doc).IsTrue ∧ a.Follows False (a.read doc) := by
  obtain ⟨hitem, hfailed, hreadings⟩ := a.item.read_follows doc
  refine ⟨⟨ha.fresh, ha.history.trans hitem, hfailed, ?_⟩, rfl, hitem, fun hsome => ?_⟩
  · rwa [hunread] at hreadings
  · rw [hlisted] at hsome
    cases hsome

end Account

/-- What the session reports of reading its items is what reading makes of their accounts. -/
theorem Session.compile_accounts {accounts : List Account} {s s' : Session}
    (hunfinished : .compile ∉ s.finished) (hitems : s.items = accounts.map Account.item)
    (h : s.compile = .ok s') :
    s'.items = Account.listed (accounts.map (Account.read s.document)) ∧
      s'.errors = s.errors ++ (accounts.map (Account.read s.document)).filterMap Account.failure? ∧
      s'.finished = s.finished ++ [.compile] ∧
      Account.hear accounts ((s.news s').filterMap Report.outcome?) =
        accounts.map (Account.read s.document) := by
  obtain rfl := compile_parts hunfinished h
  rw [news, hitems]
  refine ⟨?_, ?_, rfl, ?_⟩
  · simp only [Account.listed, List.filter_map, List.map_map]
    rfl
  · rw [List.filterMap_map, List.filterMap_map]
    rfl
  · rw [List.drop_left, List.map_map, List.filterMap_map, ← Account.hear_map]
    exact congrArg _ (congrFun List.filterMap_eq_map' _)

namespace Watched

variable {w w' : Watched}

/-- The accounts are kept: the items of the session are those of the accounts without an error, in
order, and its errors are the others. -/
structure IsKept (w : Watched) : Prop where
  found : w.accounts.map Account.found = sortByKey Item.key w.reported
  items : w.session.items = Account.listed w.accounts
  errors : w.session.errors = w.accounts.filterMap Account.failure?
  isTrue : ∀ a ∈ w.accounts, a.IsTrue
  undiscovered : .discover ∉ w.session.finished → w.accounts = []
  unread : .compile ∉ w.session.finished →
    ∀ a ∈ w.accounts, a.error = none ∧ a.item.readings = 0

/-- The accounts have changed in place, or the session has begun anew. -/
def Continues (back : Prop) (w w' : Watched) : Prop :=
  w.accounts = [] ∨ List.Forall₂ (Account.Follows back) w.accounts w'.accounts

theorem Continues.mono {back back' : Prop} (h : w.Continues back w') (himp : back → back') :
    w.Continues back' w' :=
  h.imp_right fun h => h.imp fun _ _ hab => hab.mono himp

theorem Continues.trans {back : Prop} {w'' : Watched} (h : w.Continues False w')
    (h' : w'.Continues back w'') : w.Continues back w'' := by
  rcases h with hnil | h
  · exact .inl hnil
  · rcases h' with hnil | h'
    · rw [hnil] at h
      exact .inl (List.forall₂_nil_right_iff.1 h)
    · exact .inr ((forall₂_through h.flip h').imp fun _ _ ⟨_, hab, hbc⟩ => hab.trans hbc)

theorem isKept_new {s : Session} (hitems : s.items = []) (herrors : s.errors = []) :
    IsKept { session := s } where
  found := by rw [sortByKey, List.mergeSort_nil, List.map_nil]
  items := hitems
  errors := herrors
  isTrue a ha := absurd ha List.not_mem_nil
  undiscovered _ := rfl
  unread _ a ha := absurd ha List.not_mem_nil

theorem IsKept.refilled (h : w.IsKept) {back : Prop} {next : Except Fault Session}
    (hnext : ∀ s, next = .ok s → w.session.Advances back s) (hrun : w.refilled next = .ok w') :
    w'.IsKept ∧ w.Continues back w' := by
  cases next with
  | error fault => cases hrun
  | ok s =>
    cases hrun
    obtain ⟨hitems, herrors, hfinished⟩ := hnext s rfl
    rw [h.items] at hitems
    obtain ⟨hlisted, hfailed, hrefills⟩ := Account.refill_changes hitems
    have hfollows := hrefills.imp fun _ _ hab => hab.follows
    refine ⟨⟨(Account.map_found hfollows).trans h.found, hlisted.symm, ?_, ?_, ?_, ?_⟩,
      .inr hfollows⟩
    · exact herrors.trans (h.errors.trans hfailed.symm)
    · intro b hb
      obtain ⟨a, ha, hab⟩ := exists_left hrefills hb
      exact hab.isTrue (h.isTrue a ha)
    · intro hdiscover
      rw [hfinished _ (.inl rfl)] at hdiscover
      show Account.refill w.accounts s.items = []
      rw [h.undiscovered hdiscover]
      rfl
    · intro hcompile b hb
      rw [hfinished _ (.inr rfl)] at hcompile
      obtain ⟨a, ha, hab⟩ := exists_left hrefills hb
      rw [hab.error, hab.unread]
      exact h.unread hcompile a ha

theorem exists_ok_of_map {α : Type} {x : Except Fault α} {f : α → Watched} (h : x.map f = .ok w) :
    ∃ a, x = .ok a ∧ f a = w := by
  cases x with
  | error fault => cases h
  | ok a => exact ⟨a, rfl, Except.ok.inj h⟩

theorem IsKept.compile (h : w.IsKept) (hrun : w.compile = .ok w') :
    w'.IsKept ∧ w.Continues False w' := by
  obtain ⟨s, hcompile, rfl⟩ := exists_ok_of_map hrun
  by_cases hfinished : Phase.compile ∈ w.session.finished
  · rw [Session.compile, if_pos hfinished] at hcompile
    cases hcompile
    have hnothing : Account.hear w.accounts
        ((w.session.news w.session).filterMap Report.outcome?) = w.accounts := by
      rw [Session.news, List.drop_length, List.filterMap_nil]
      cases w.accounts <;> rfl
    rw [hnothing]
    exact ⟨h, .inr (List.forall₂_same.2 fun a _ => .refl False a)⟩
  · have hunread := h.unread hfinished
    have hlisted := Account.listed_of_error_eq_none fun a ha => (hunread a ha).1
    have hnone : w.session.errors = [] := by
      rw [h.errors, List.filterMap_eq_nil_iff]
      intro a ha
      rw [Account.failure?, (hunread a ha).1]
      rfl
    obtain ⟨hitems, herrors, hphases, haccounts⟩ :=
      Session.compile_accounts hfinished (h.items.trans hlisted) hcompile
    have hread : ∀ a ∈ w.accounts, (a.read w.session.document).IsTrue ∧
        a.Follows False (a.read w.session.document) := fun a ha =>
      Account.read_spec (h.isTrue a ha) (hunread a ha).1 (hunread a ha).2
    have hfollows : List.Forall₂ (Account.Follows False) w.accounts
        (w.accounts.map (Account.read w.session.document)) :=
      List.forall₂_map_right_iff.2 (List.forall₂_same.2 fun a ha => (hread a ha).2)
    rw [haccounts]
    refine ⟨⟨(Account.map_found hfollows).trans h.found, hitems, ?_, ?_, ?_, ?_⟩, .inr hfollows⟩
    · rw [herrors, hnone]
      exact List.nil_append _
    · intro b hb
      obtain ⟨a, ha, rfl⟩ := List.mem_map.1 hb
      exact (hread a ha).1
    · intro hdiscover
      rw [hphases] at hdiscover
      have hdiscover : Phase.discover ∉ w.session.finished := fun hmem =>
        hdiscover (List.mem_append_left _ hmem)
      show w.accounts.map _ = []
      rw [h.undiscovered hdiscover]
      rfl
    · intro hcompile
      rw [hphases] at hcompile
      exact absurd (List.mem_append_right _ (List.mem_singleton_self _)) hcompile

theorem IsKept.discover (h : w.IsKept) {containers : Option (List NodeId)}
    (hrun : w.discover containers = .ok w') : w'.IsKept ∧ w.Continues False w' := by
  obtain ⟨s, hdiscover, rfl⟩ := exists_ok_of_map hrun
  by_cases hfinished : Phase.discover ∈ w.session.finished
  · rw [Session.discover, if_pos hfinished] at hdiscover
    cases hdiscover
    rw [if_pos (by simp [Session.news])]
    exact ⟨h, .inr (List.forall₂_same.2 fun a _ => .refl False a)⟩
  · have hnil := h.undiscovered hfinished
    have hitems : w.session.items = [] := by
      rw [h.items, hnil]
      rfl
    have herrors : w.session.errors = [] := by
      rw [h.errors, hnil]
      rfl
    obtain ⟨found, report, hfound, rfl⟩ := Session.discover_sorted hfinished hitems hdiscover
    have hunread : ∀ item ∈ sortByKey Item.key found, item.IsUnread := fun item hitem =>
      isUnread_of_mem_itemsFound hfound item ((sortByKey_isStableSort _).perm.mem_iff.1 hitem)
    rw [if_neg (by simp [Session.news])]
    simp only [hfound]
    refine ⟨⟨?_, ?_, ?_, ?_, ?_, ?_⟩, .inl hnil⟩
    · rw [List.map_map]
      exact List.map_id _
    · rw [Account.listed_of_error_eq_none]
      · rw [List.map_map]
        exact (List.map_id _).symm
      · intro a ha
        obtain ⟨item, -, rfl⟩ := List.mem_map.1 ha
        rfl
    · rw [herrors, eq_comm, List.filterMap_eq_nil_iff]
      intro a ha
      obtain ⟨item, -, rfl⟩ := List.mem_map.1 ha
      rfl
    · intro a ha
      obtain ⟨item, hitem, rfl⟩ := List.mem_map.1 ha
      obtain ⟨hnew, hreadings⟩ := hunread item hitem
      exact ⟨hnew, .refl .., fun herror => (by cases herror), hreadings ▸ Nat.zero_le _⟩
    · intro hdiscover
      exact absurd (List.mem_append_right _ (List.mem_singleton_self _)) hdiscover
    · intro _ a ha
      obtain ⟨item, hitem, rfl⟩ := List.mem_map.1 ha
      exact ⟨rfl, (hunread item hitem).readings⟩

/-- Every call keeps the accounts.  It goes on with the items, of which it takes back those only
that it removes from the document, or it begins anew. -/
theorem IsKept.call (h : w.IsKept) {c : Call} (hrun : w.call c = .ok w') :
    w'.IsKept ∧ (c = .reset ∨ w.Continues (∃ restore, c = .remove restore) w') := by
  cases c with
  | discover containers =>
    obtain ⟨hkept, hcontinues⟩ := h.discover hrun
    exact ⟨hkept, .inr (hcontinues.mono False.elim)⟩
  | compile =>
    obtain ⟨hkept, hcontinues⟩ := h.compile hrun
    exact ⟨hkept, .inr (hcontinues.mono False.elim)⟩
  | typeset =>
    obtain ⟨hkept, hcontinues⟩ := h.refilled (fun _ => Session.typeset_advances) hrun
    exact ⟨hkept, .inr (hcontinues.mono False.elim)⟩
  | update =>
    obtain ⟨hkept, hcontinues⟩ := h.refilled (fun _ => Session.update_advances) hrun
    exact ⟨hkept, .inr (hcontinues.mono False.elim)⟩
  | render =>
    obtain ⟨w₁, hdiscover, hrun⟩ := Reader.exists_ok_of_bind hrun
    obtain ⟨w₂, hcompile, hrun⟩ := Reader.exists_ok_of_bind hrun
    obtain ⟨w₃, htypeset, hrun⟩ := Reader.exists_ok_of_bind hrun
    obtain ⟨h₁, hcontinues₁⟩ := h.discover hdiscover
    obtain ⟨h₂, hcontinues₂⟩ := h₁.compile hcompile
    obtain ⟨h₃, hcontinues₃⟩ := h₂.refilled (fun _ => Session.typeset_advances) htypeset
    obtain ⟨h₄, hcontinues₄⟩ := h₃.refilled (fun _ => Session.update_advances) hrun
    refine ⟨h₄, .inr (Continues.mono ?_ False.elim)⟩
    exact ((hcontinues₁.trans hcontinues₂).trans hcontinues₃).trans hcontinues₄
  | remove restore =>
    obtain ⟨hkept, hcontinues⟩ := h.refilled (fun _ => Session.removeFromDocument_advances) hrun
    exact ⟨hkept, .inr (hcontinues.mono fun _ => ⟨restore, rfl⟩)⟩
  | reset =>
    cases hrun
    exact ⟨isKept_new rfl rfl, .inl rfl⟩

theorem IsKept.calls (h : w.IsKept) {cs : List Call} (hrun : w.calls cs = .ok w') : w'.IsKept := by
  induction cs generalizing w with
  | nil =>
    cases hrun
    exact h
  | cons c rest ih =>
    obtain ⟨w₁, hcall, hrun⟩ := Reader.exists_ok_of_bind hrun
    exact ih (h.call hcall).1 hrun

/-- Both what is listed and what failed come in the order of keys. -/
theorem IsKept.sorted (h : w.IsKept) :
    (w.session.items.Pairwise fun a b => a.key.le b.key = true) ∧
      w.session.errors.Pairwise fun a b => a.1.key.le b.1.key = true := by
  have hfound : w.accounts.Pairwise fun a b => a.found.key.le b.found.key = true :=
    List.pairwise_map.1 (h.found ▸ (sortByKey_isStableSort w.reported).ordered)
  have hsorted : w.accounts.Pairwise fun a b => a.item.key.le b.item.key = true :=
    hfound.imp_of_mem fun ha hb hle => by
      rwa [(h.isTrue _ ha).history.key, (h.isTrue _ hb).history.key]
  rw [h.items, h.errors]
  refine ⟨List.pairwise_map.2 (hsorted.filter _), hsorted.filterMap _ fun a b hle x hx y hy => ?_⟩
  obtain ⟨e, -, rfl⟩ := Option.map_eq_some_iff.1 hx
  obtain ⟨e', -, rfl⟩ := Option.map_eq_some_iff.1 hy
  exact hle

/-- What the accounts say of a session. -/
structure Accounts (w : Watched) (s : Session) : Prop where
  session : w.session = s
  /-- What was found is what the sources reported, in the order of keys. -/
  found : w.accounts.map Account.found = sortByKey Item.key w.reported
  /-- The items are those of the accounts without an error, in order. -/
  items : s.items = (w.accounts.filter Account.isListed).map Account.item
  /-- The errors are those of the other accounts, in order. -/
  errors : s.errors = w.accounts.filterMap Account.failure?
  items_sorted : s.items.Pairwise fun a b => a.key.le b.key = true
  errors_sorted : s.errors.Pairwise fun a b => a.1.key.le b.1.key = true
  /-- An item is still what it was found as. -/
  same : ∀ a ∈ w.accounts, a.item.math = a.found.math ∧ a.item.source = a.found.source ∧
    a.item.key = a.found.key
  /-- An item with an error has not been processed and is where it was found. -/
  failed : ∀ a ∈ w.accounts, a.error.isSome → a.item.IsNew ∧ a.item.start = a.found.start ∧
    a.item.stop = a.found.stop
  /-- No source is read twice. -/
  readings : ∀ a ∈ w.accounts, a.item.readings ≤ 1
  /-- A call goes on with the items, if there are any and it does not reset the session.  It takes
  no item back to an earlier stage, but a removal takes items from the document to their typeset
  forms. -/
  next : ∀ c s', s.call c = .ok s' → ∃ w', w.call c = .ok w' ∧ w'.session = s' ∧
    (c = .reset ∨ w.accounts = [] ∨
      List.Forall₂ (Account.Follows (∃ restore, c = .remove restore)) w.accounts w'.accounts)

theorem exists_of_session {x : Except Fault Watched} {s : Session} (h : x.map session = .ok s) :
    ∃ w, x = .ok w ∧ w.session = s := by
  cases x with
  | error fault => cases h
  | ok w => exact ⟨w, rfl, Except.ok.inj h⟩

theorem IsKept.accounts (h : w.IsKept) : w.Accounts w.session where
  session := rfl
  found := h.found
  items := h.items
  errors := h.errors
  items_sorted := h.sorted.1
  errors_sorted := h.sorted.2
  same a ha := ⟨(h.isTrue a ha).history.math, (h.isTrue a ha).history.source,
    (h.isTrue a ha).history.key⟩
  failed a ha herror := by
    obtain ⟨hfresh, hhistory, hfailed, -⟩ := h.isTrue a ha
    obtain ⟨hroot, hcontent, hstart, hstop⟩ := hhistory.untouched (hfailed herror)
    exact ⟨⟨hfailed herror, hroot.trans hfresh.root, hcontent.trans hfresh.content⟩, hstart, hstop⟩
  readings a ha := (h.isTrue a ha).readings
  next c s' hcall := by
    obtain ⟨w', hw', rfl⟩ := exists_of_session ((w.call_session c).trans hcall)
    exact ⟨w', hw', rfl, (h.call hw').2⟩

end Watched

/-- Whatever is called, in whatever order and however often: if nothing fails, the items that were
found since the last reset are those in the list and those that were recorded with an error, both in
the order in which they were found, which is that of their keys.  An item with an error has not been
processed and is where it was found, no source is read twice, and no call takes an item back to an
earlier stage, except that a removal takes items from the document to their typeset forms. -/
theorem calls_accounted (doc : Document) (sources : List Source)
    (containers : Option (List NodeId)) (extraction : Extraction) (cs : List Call) (s : Session)
    (hrun : ({ document := doc, sources, containers, extraction } : Session).calls cs = .ok s) :
    ∃ w, Watched.calls { session := { document := doc, sources, containers, extraction } } cs =
      .ok w ∧ w.Accounts s := by
  let new : Watched := { session := { document := doc, sources, containers, extraction } }
  obtain ⟨w, hw, rfl⟩ := Watched.exists_of_session ((new.calls_session cs).trans hrun)
  have hnew : new.IsKept := Watched.isKept_new rfl rfl
  exact ⟨w, hw, (hnew.calls hw).accounts⟩

/-- One formula cannot be read, and what can be read comes, goes and comes back. -/
theorem calls_accounted_failingFormula : ∃ s w,
    let calls := [.render, .remove true, .compile, .render]
    ({ document := failingFormula, sources := [.tex, .mathml] } : Session).calls calls = .ok s ∧
    Watched.calls { session := { document := failingFormula, sources := [.tex, .mathml] } } calls =
      .ok w ∧ w.Accounts s := by
  have hdoc : failingFormula.WellFormed := wellFormed_ofFragments _
  have hs : Source.AreUsual [.tex, .mathml] := .inr (.inr (.inl rfl))
  have hfresh : Session.IsFresh { document := failingFormula, sources := [.tex, .mathml] } :=
    ⟨hs, rfl, rfl, rfl, rfl, rfl⟩
  obtain ⟨s₁, hrender, ⟨D⟩⟩ := render_rendered hdoc isPlain_failingFormula hfresh
  have hsettled := D.settled hdoc isPlain_failingFormula hs
  obtain ⟨r, pairs, hremove, hfst, hrestored⟩ := hsettled.exists_restored
  obtain ⟨doc', hupdate, -⟩ := hrestored.exists_update hsettled hfst
  have hfinished : r.finished = [.discover, .compile, .typeset] := by rw [hrestored.session]
  have hdiscover : r.discover none = .ok r := Session.discover_of_mem (by simp [hfinished])
  have hcompile : r.compile = .ok r := Session.compile_of_mem (by simp [hfinished])
  have htypeset : r.typeset = .ok r := Session.typeset_of_mem (by simp [hfinished])
  have hrun : ({ document := failingFormula, sources := [.tex, .mathml] } : Session).calls
      [.render, .remove true, .compile, .render] = .ok { s₁ with document := doc' } := by
    simp only [Session.calls, Session.call, hrender, hremove, hcompile,
      render_eq hdiscover hcompile htypeset hupdate, bind, Except.bind]
  obtain ⟨w, hw, haccounts⟩ := calls_accounted _ _ _ _ _ _ hrun
  exact ⟨_, w, hrun, hw, haccounts⟩

end Formulary
