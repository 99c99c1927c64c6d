/-
# Transactions do not fail fatally over sound storage

A transaction begins, runs the tree of its message, deletes accounts and commits its scope.  Over
a sound journal none of this fails fatally, and the journal stays sound (`Session.transact_safe`).
A service runs transactions between other calls of its journal, commits and persisting among them
(`Service.serve`).  So whatever was done before, no transaction over a store that never fails ends
fatally: no node, no code and no account is missing or malformed, no offset is too large, and every
frame that waits can go on (`Service.never_fatal`).

It is assumed that no two of the byte strings that are hashed on the way have one hash, and that
nothing but the size of a quantity limits writing to memory.
-/

import Mathlib
import Ethereum.Proofs.Transaction.Aborting
import Ethereum.Proofs.Transaction.Safety

namespace Ethereum

namespace Transact

variable {α β : Type} {data : List Bytes} {setting : SessionSetting} {t : Transaction}
  {s s' : Session} {m : Message}

/-! ## Parts of transactions -/

/-- The program did not fail fatally and left a sound journal, and if it returned, `P` holds. -/
def Safe (data : List Bytes) (store : Store) (P : α → Prop) (r : Except ExitReason α)
    (s' : Session) : Prop :=
  s'.journal.Sound data store ∧ match r with
    | .ok a => P a
    | .error reason => reason.isFatal = false

section
variable {P : α → Prop} {Q : β → Prop}

theorem safe_bind {p : Transact α} {f : α → Transact β}
    (hp : Ends (p setting) s (Safe data setting.store P))
    (hf : ∀ a s₁, p setting s = .ok a s₁ → s₁.journal.Sound data setting.store → P a →
      Ends (f a setting) s₁ (Safe data setting.store Q)) :
    Ends ((p >>= f) setting) s (Safe data setting.store Q) := by
  refine Ends.bind_of_run (fun a s₁ hrun => ?_) fun e s₁ hrun => hp.of_error hrun
  obtain ⟨hs₁, ha⟩ := hp.of_ok hrun
  exact hf a s₁ hrun hs₁ ha

theorem reading_bind_safe (hs : s.journal.Sound data setting.store)
    {read : Journal → Store → Except StateError α} (hread : Journal.Answered data read)
    {f : α → Transact β} {Q : Except ExitReason β → Session → Prop}
    (hf : ∀ a, Ends (f a setting) s Q) : Ends ((reading read >>= f) setting) s Q := by
  obtain ⟨a, ha⟩ := hread _ _ hs
  have hrun : reading read setting s = .ok a s := by rw [reading, ha]
  exact bind_ends_of_ok hrun (hf a)

theorem changing_safe (hs : s.journal.Sound data setting.store)
    {change : Store → Journal.Change α} (hchange : Journal.Succeeds data change) :
    Ends (changing change setting) s (Safe data setting.store fun _ => True) := by
  obtain ⟨a, j, hj, hsound⟩ := hchange _ _ hs
  rw [Ends, changing, hj]
  exact ⟨hsound, trivial⟩

theorem reverting_safe {p : Transact α} (hp : Ends (p setting) s (Safe data setting.store P)) :
    Ends (reverting p setting) s (Safe data setting.store P) := by
  refine reverting_ends (hp.mono ?_)
  rintro (reason | a) s₁ ⟨hs₁, h⟩
  · exact ⟨hs₁.revert, h⟩
  · exact ⟨hs₁, h⟩

/-- What is done to accounts one after the other. -/
theorem forM_safe {l : List Address} {f : Address → Transact Unit}
    (hf : ∀ address ∈ l, ∀ s : Session, s.journal.Sound data setting.store →
      Ends (f address setting) s (Safe data setting.store fun _ => True))
    (hs : s.journal.Sound data setting.store) :
    Ends (l.forM f setting) s (Safe data setting.store fun _ => True) := by
  induction l generalizing s with
  | nil => exact ⟨hs, trivial⟩
  | cons address l ih =>
    refine safe_bind (hf address List.mem_cons_self s hs) fun _ s₁ _ hs₁ _ => ?_
    exact ih (fun a ha => hf a (List.mem_cons_of_mem _ ha)) hs₁

end

/-! ## The tree of a transaction -/

theorem begin_safe (hs : s.journal.Sound data setting.store) (hsender : t.sender.Known data) :
    Ends (begin t setting) s (Safe data setting.store fun _ => True) := by
  refine bind_ends_of_ok rfl (bind_ends_of_ok rfl ?_)
  by_cases hgas : t.gasLimit < setting.config.schedule.intrinsic t.data t.target.isNone
  · rw [if_pos hgas]
    exact ⟨hs, rfl⟩
  rw [if_neg hgas]
  have hbegun : ({ s with usedGas := 0 } : Session).journal.Sound data setting.store := hs
  refine reading_bind_safe hbegun (Journal.answered_balance hsender) fun balance => ?_
  by_cases hfund : balance < t.value
  · rw [if_pos hfund]
    exact ⟨hs, rfl⟩
  rw [if_neg hfund]
  refine safe_bind (changing_safe hbegun (Journal.succeeds_incrementNonce hsender)) ?_
  exact fun _ s₁ _ hs₁ _ => ⟨hs₁, trivial⟩

theorem order_safe (hs : s.journal.Sound data setting.store) (hsender : t.sender.Known data)
    (htarget : ∀ target ∈ t.target, target.Known data) :
    Ends (order t setting) s (Safe data setting.store fun _ => True) := by
  refine safe_bind (begin_safe hs hsender) fun begun s₁ _ hs₁ _ => ?_
  cases hcase : t.target with
  | none => exact ⟨hs₁, trivial⟩
  | some target =>
    have hcode : Ends (reverting (reading (·.code · target)) setting) s₁
        (Safe data setting.store fun _ => True) := by
      rw [← bind_pure (reading _)]
      refine reverting_safe (reading_bind_safe hs₁ (Journal.answered_code ?_) fun _ => ?_)
      · exact htarget target hcase
      · exact ⟨hs₁, trivial⟩
    exact safe_bind hcode fun _ s₂ _ hs₂ _ => ⟨hs₂, trivial⟩

/-- What is known of a root frame that has ended. -/
structure Finished (data : List Bytes) (f : Frame) : Prop where
  reason : f.exitReason.isFatal = false
  destroyed : ∀ address ∈ f.selfDestructs, address.Known data

theorem runMessage_safe (hs : s.journal.Sound data setting.store)
    (hlimit : setting.config.memoryLimit = Quantity.max)
    (hknown : Lifecycle.hashedTree setting.toSetting (setting.root m s) ⊆ data) :
    Ends (runMessage m setting) s (Safe data setting.store (Finished data)) := by
  have htree : Ends (Lifecycle.runTree setting.toSetting) (setting.root m s)
      (Lifecycle.SafeTree data setting.store) := Lifecycle.runTree_safe hs rfl hlimit hknown
  rw [SessionSetting.root] at htree
  rw [Ends, runMessage]
  cases hrun : Lifecycle.runTree setting.toSetting
      ⟨.new setting.config setting.block m, s.journal, s.trace⟩ with
  | ok _ machine =>
    obtain ⟨-, hjournal, hdestroyed⟩ := htree.of_ok hrun
    have hreason := Lifecycle.exitReason_of_runTree rfl hrun
    refine ⟨hjournal, ?_, hdestroyed⟩
    cases hcase : machine.frame.exitReason with
    | fatal e => exact absurd hcase (hreason e)
    | _ => rfl
  | error e machine => cases (htree.of_error hrun).returned

/-- The bytes that a transaction hashes: its sender, its target, and what its frames hash. -/
def hashed (setting : SessionSetting) (t : Transaction) (s : Session) : List Bytes :=
  Address.toBytes t.sender :: (t.target.toList.map Address.toBytes ++
    after (order t setting s) fun m s₁ =>
      Lifecycle.hashedTree setting.toSetting (setting.root m s₁))

/-- **The tree of a transaction** does not fail fatally. -/
theorem tree_safe (hs : s.journal.Sound data setting.store)
    (hlimit : setting.config.memoryLimit = Quantity.max) (hknown : hashed setting t s ⊆ data) :
    Ends (tree t setting) s (Safe data setting.store (Finished data)) := by
  obtain ⟨hsender, hknown⟩ := List.cons_subset.mp hknown
  obtain ⟨htargets, hframes⟩ := List.append_subset.mp hknown
  have htarget : ∀ target ∈ t.target, target.Known data := by
    intro target htarget
    rw [Option.mem_def.mp htarget] at htargets
    exact htargets List.mem_cons_self
  rw [tree_eq]
  refine safe_bind (order_safe hs hsender htarget) fun m s₁ hrun hs₁ _ => reverting_safe ?_
  rw [hrun] at hframes
  exact runMessage_safe hs₁ hlimit hframes

/-! ## The end of a transaction -/

theorem takeOver_safe (hs : s.journal.Sound data setting.store) {f : Frame}
    (hf : Finished data f) : Ends (takeOver f setting) s (Safe data setting.store fun _ => True) := by
  rw [takeOver]
  split
  · refine safe_bind (forM_safe (fun address haddress s hs => ?_) hs) fun _ s₁ _ hs₁ _ => ?_
    · have hknown := hf.destroyed address (Std.ExtTreeSet.mem_toList.mp haddress)
      exact changing_safe hs (Journal.succeeds_deleteAccount hknown)
    · exact ⟨hs₁, trivial⟩
  · exact ⟨hs, trivial⟩

theorem clearEmptyAccounts_safe (hs : s.journal.Sound data setting.store) :
    Ends (clearEmptyAccounts setting) s (Safe data setting.store fun _ => True) := by
  refine bind_ends_of_ok rfl ?_
  by_cases hclear : setting.config.clearEmptyAccounts
  · rw [if_pos hclear]
    refine bind_ends_of_ok rfl (forM_safe (fun address haddress s₁ hs₁ => ?_) hs)
    have hknown := hs.known_of_touched haddress
    refine reading_bind_safe hs₁ (Journal.answered_isEmpty hknown) fun isEmpty => ?_
    cases isEmpty with
    | true => exact changing_safe hs₁ (Journal.succeeds_deleteAccount hknown)
    | false => exact ⟨hs₁, trivial⟩
  · rw [if_neg hclear]
    exact ⟨hs, trivial⟩

theorem settle_safe (hs : s.journal.Sound data setting.store) :
    Ends (settle setting) s (Safe data setting.store fun _ => True) := by
  refine reverting_safe (safe_bind (clearEmptyAccounts_safe hs) fun _ s₁ _ hs₁ _ => ?_)
  exact changing_safe hs₁ Journal.succeeds_commit

theorem close_safe (hs : s.journal.Sound data setting.store) {f : Frame} (hf : Finished data f)
    (gasLimit : Nat) : Ends (close gasLimit f setting) s
      (Safe data setting.store fun receipt => receipt.reason.isFatal = false) := by
  rw [close_eq_parts]
  refine safe_bind (takeOver_safe hs hf) fun _ s₁ _ hs₁ _ => ?_
  exact safe_bind (settle_safe hs₁) fun _ s₂ _ hs₂ _ => ⟨hs₂, hf.reason⟩

end Transact

/-- **A transaction** over a sound journal does not end fatally, and leaves a sound journal. -/
theorem Session.transact_safe {data : List Bytes} {setting : SessionSetting} {t : Transaction}
    {s : Session} (hs : s.journal.Sound data setting.store)
    (hlimit : setting.config.memoryLimit = Quantity.max)
    (hknown : Transact.hashed setting t (s.opened t) ⊆ data) :
    (s.transact setting t).2.journal.Sound data setting.store ∧
      (s.transact setting t).1.reason.isFatal = false := by
  have hopened : (s.opened t).journal.Sound data setting.store := by rwa [journal_opened]
  have hends : Ends ((Transact.tree t >>= Transact.close t.gasLimit) setting) (s.opened t)
      (Transact.Safe data setting.store fun receipt => receipt.reason.isFatal = false) :=
    Transact.safe_bind (Transact.tree_safe hopened hlimit hknown) fun f s₁ _ hs₁ hf =>
      Transact.close_safe hs₁ hf t.gasLimit
  cases hrun : (Transact.tree t >>= Transact.close t.gasLimit) setting (s.opened t) with
  | ok receipt s₁ =>
    obtain ⟨hs₁, hreason⟩ := hends.of_ok hrun
    obtain ⟨⟨trace, hleft⟩, hreceipt⟩ := (transact_ends setting t s).of_ok hrun
    rw [hleft, hreceipt]
    exact ⟨hs₁, hreason⟩
  | error reason s₁ =>
    obtain ⟨hs₁, hreason⟩ := hends.of_error hrun
    obtain ⟨⟨trace, hleft⟩, hreceipt⟩ := (transact_ends setting t s).of_error hrun
    rw [hleft, hreceipt]
    exact ⟨hs₁, hreason⟩

/-! ## Services -/

/-- A session of transactions and the store under its world. -/
structure Service where
  store : Store
  session : Session

namespace Service

/-- What a service is asked for. -/
inductive Request where
  /-- A call of the journal: a change, a read, a commit, persisting. -/
  | call (c : Call)
  /-- A transaction, over the store of the service. -/
  | transact (setting : SessionSetting) (t : Transaction)

/-- The empty world over a store that never fails. -/
def start (entries : Std.ExtTreeMap Bytes Bytes) : Service :=
  ⟨⟨entries, 0, false⟩, .ofJournal (.ofWorld .empty) .off⟩

/-- The journal of the service over its store. -/
def ledger (s : Service) : Ledger := ⟨s.store, s.session.journal⟩

/-- A setting over the store of the service. -/
def settingOf (s : Service) (setting : SessionSetting) : SessionSetting :=
  { setting with store := s.store }

/-- Serves a request.  Gives the receipt of a transaction. -/
def serve (s : Service) : Request → Option Receipt × Service
  | .call c =>
    let left := (s.ledger.call c).2
    (none, ⟨left.store, { s.session with journal := left.journal }⟩)
  | .transact setting t =>
    let (receipt, session) := s.session.transact (s.settingOf setting) t
    (some receipt, { s with session })

/-- The receipts of transactions among requests one after the other. -/
def receipts : List Request → Service → List Receipt
  | [], _ => []
  | r :: rs, s => (s.serve r).1.toList ++ receipts rs (s.serve r).2

/-- The bytes that a request hashes. -/
def Request.hashed (s : Service) : Request → List Bytes
  | call c => c.hashed s.ledger
  | transact setting t => Transact.hashed (s.settingOf setting) t (s.session.opened t)

/-- The bytes that are hashed by requests one after the other. -/
def hashed : List Request → Service → List Bytes
  | [], _ => []
  | r :: rs, s => r.hashed s ++ hashed rs (s.serve r).2

/-- Nothing but the size of a quantity limits where a transaction may write to memory. -/
def Request.Unlimited : Request → Prop
  | call _ => True
  | transact setting _ => setting.config.memoryLimit = Quantity.max

/-- The journal of the service is sound over its store. -/
def Sound (data : List Bytes) (s : Service) : Prop := s.session.journal.Sound data s.store

variable {data : List Bytes} {s : Service}

/-- **One request** keeps a service sound, and if it is a transaction, this does not end
fatally. -/
theorem Sound.serve (h : s.Sound data) {r : Request} (hlimit : r.Unlimited)
    (hknown : r.hashed s ⊆ data) :
    (s.serve r).2.Sound data ∧ ∀ receipt ∈ (s.serve r).1, receipt.reason.isFatal = false := by
  cases r with
  | call c =>
    obtain ⟨m, h⟩ := h
    refine ⟨⟨_, (h.call hknown).2⟩, fun receipt hreceipt => ?_⟩
    cases hreceipt
  | transact setting t =>
    have hstore : s.session.journal.Sound data (s.settingOf setting).store := h
    obtain ⟨hjournal, hreason⟩ := Session.transact_safe hstore hlimit hknown
    refine ⟨hjournal, fun receipt hreceipt => ?_⟩
    cases hreceipt
    exact hreason

theorem Sound.receipts (h : s.Sound data) {requests : List Request}
    (hlimit : ∀ r ∈ requests, r.Unlimited) (hknown : hashed requests s ⊆ data) :
    ∀ receipt ∈ receipts requests s, receipt.reason.isFatal = false := by
  induction requests generalizing s with
  | nil => exact List.forall_mem_nil _
  | cons r rs ih =>
    obtain ⟨hr, hrs⟩ := List.forall_mem_cons.mp hlimit
    obtain ⟨hfirst, hrest⟩ := List.append_subset.mp hknown
    obtain ⟨hnext, hreceipt⟩ := h.serve hr hfirst
    refine List.forall_mem_append.mpr ⟨fun receipt hmem => ?_, ih hnext hrs hrest⟩
    exact hreceipt receipt (Option.mem_toList.mp hmem)

/-- **Transactions end fatally only over corrupted storage.**  From the empty world over a store
that never fails, whatever it has, no transaction ends fatally, whatever calls, commits,
transactions and persisting went before it, under whatever rules, instructions, precompiled
contracts and limits of the stacks. -/
theorem never_fatal (entries : Std.ExtTreeMap Bytes Bytes) (requests : List Request)
    (hlimit : ∀ r ∈ requests, r.Unlimited)
    (hcol : Collisionless ([] :: Node.null.encode :: hashed requests (start entries))) :
    ∀ receipt ∈ receipts requests (start entries), receipt.reason.isFatal = false := by
  have hd : Apart ([] :: Node.null.encode :: hashed requests (start entries)) :=
    ⟨hcol, List.mem_cons_self, List.mem_cons_of_mem _ List.mem_cons_self⟩
  have hstart : (start entries).Sound ([] :: Node.null.encode :: hashed requests (start entries)) :=
    ⟨_, Ledger.refines_start hd entries⟩
  exact hstart.receipts hlimit fun b hb => List.mem_cons_of_mem _ (List.mem_cons_of_mem _ hb)

/-- Account 1 pays account 2, which calls account 3, which writes a slot and halts. -/
def calling : List Request := [
  .call (.createAccount 1 0 100), .call (.createAccount 2 1 0),
  .call (.setCode 2 Lifecycle.callerCode), .call (.createAccount 3 1 0),
  .call (.setCode 3 Lifecycle.haltingCode),
  .transact Session.bareSession ⟨1, some 2, 5, [], 100000⟩]

/-- Three accounts are created, and the one transaction among the requests runs two frames. -/
theorem never_fatal_of_calling : (∀ r ∈ calling, r.Unlimited) ∧
    Collisionless ([] :: Node.null.encode :: hashed calling (start ∅)) ∧
    (receipts calling (start ∅)).length = 1 ∧
    ∀ receipt ∈ receipts calling (start ∅), receipt.reason.isFatal = false := by
  have hlimit : ∀ r ∈ calling, r.Unlimited := by
    simp only [calling, List.forall_mem_cons, Request.Unlimited, true_and]
    exact ⟨rfl, List.forall_mem_nil _⟩
  have hhashed : [] :: Node.null.encode :: hashed calling (start ∅) ⊆
      [[], Node.null.encode, Address.toBytes 1, Address.toBytes 2, Address.toBytes 3,
        Lifecycle.callerCode, Lifecycle.haltingCode, Word.toBytes 0] := by decide +kernel
  have hcol : Collisionless ([] :: Node.null.encode :: hashed calling (start ∅)) := by
    refine Collisionless.mono ?_ hhashed
    decide +kernel
  have hlength : (receipts calling (start ∅)).length = 1 := by
    simp [calling, receipts, serve]
  exact ⟨hlimit, hcol, hlength, never_fatal ∅ calling hlimit hcol⟩

end Service
end Ethereum
