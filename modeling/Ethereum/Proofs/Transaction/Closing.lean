/-
# The two parts of a transaction

A transaction begins and runs a tree of frames (`Transact.tree`).  One that is rejected has
changed nothing, and the tree conserves value (`Transact.tree_ends`).  Then the transaction
deletes accounts and commits its scope (`Transact.close`): the accounts that deleted themselves
with what they still have, and empty ones, which have nothing (`Transact.close_ends`).
-/

import Mathlib
import Ethereum.Proofs.State.Writing
import Ethereum.Proofs.Transaction.Conservation
import Ethereum.Transaction.Session

namespace Ethereum

/-- What a transaction costs before any code runs. -/
def SessionSetting.intrinsic (setting : SessionSetting) (t : Transaction) : Nat :=
  setting.config.schedule.intrinsic t.data t.target.isNone

/-- The machine that the tree of a message starts from. -/
def SessionSetting.root (setting : SessionSetting) (m : Message) (s : Session) : Machine :=
  ⟨.new setting.config setting.block m, s.journal, s.trace⟩

/-- The accounts that are deleted with a root frame. -/
def Frame.deletions (f : Frame) : Finset Address :=
  if f.state = .completedSuccess then f.selfDestructs.toList.toFinset else ∅

theorem Scope.lookup_of_touched {s : Scope} {address : Address} (h : address ∈ s.touched) :
    s.lookup address ≠ none := by
  rw [lookup]
  split
  · simp
  · have hmem : address ∈ s.updated := Std.ExtTreeMap.mem_keys.mp h
    rw [Std.ExtTreeMap.mem_iff_isSome_getElem?, Option.isSome_iff_exists] at hmem
    obtain ⟨o, ho⟩ := hmem
    simp [ho]

namespace Journal

variable {store : Store} {w : World} {involved : Set Address} {j j' : Journal} {b : Balances}
  {address : Address}

/-- The journal of a transaction over a world: one scope, which says something about involved
addresses only, and balances. -/
structure Closing (store : Store) (w : World) (involved : Set Address) (b : Balances)
    (j : Journal) : Prop where
  world_eq : j.world = w
  parents_eq : j.parents = []
  mentions : ∀ address, j.scope.lookup address ≠ none → address ∈ involved
  balances : j.HasBalances store b

/-- The balances of a journal with one scope. -/
theorem balance_of_parents (h : j.parents = []) (address : Address) :
    j.balance store address = match j.scope.lookup address with
      | none => j.world.balance store address
      | some found => .ok ((found.map Overlay.balance).getD 0) := by
  rw [balance, find?, h, List.findSome?_singleton]
  cases j.scope.lookup address with
  | some found => rfl
  | none =>
    rw [World.balance]
    dsimp only
    cases j.world.account? store address with
    | error e => rfl
    | ok a => cases a <;> rfl

/-- A journal over a world gives the balances of the world. -/
theorem hasBalances_ofWorld (h : ∀ address, w.balance store address = .ok (b address)) :
    (ofWorld w).HasBalances store b := by
  refine ⟨List.forall_mem_singleton.mpr Scope.regular_empty, fun address => ?_⟩
  rw [balance_of_parents rfl, ofWorld, Scope.lookup_empty]
  exact h address

namespace Closing

/-- Accounts that are not involved have what they have in the world. -/
theorem balance_world (h : j.Closing store w involved b) (haddress : address ∉ involved) :
    w.balance store address = .ok (b address) := by
  have hnone : j.scope.lookup address = none := by
    by_contra hne
    exact haddress (h.mentions address hne)
  rw [← h.balances.balance_eq, balance_of_parents h.parents_eq, hnone, h.world_eq]

theorem deleteAccount (h : j.Closing store w involved b) (haddress : address ∈ involved)
    (hrun : Journal.deleteAccount address j = .ok () j') :
    j'.Closing store w involved (Function.update b address 0) := by
  have hbalances := h.balances.deleteAccount hrun
  cases hrun
  refine ⟨h.world_eq, h.parents_eq, fun a ha => ?_, hbalances⟩
  change (j.scope.delete address).lookup a ≠ none at ha
  rw [Scope.lookup_delete, Function.update_apply] at ha
  split at ha
  · rename_i heq
    exact heq ▸ haddress
  · exact h.mentions a ha

/-- **What is committed** is what the world has then, where hashes tell the addresses that are
involved apart. -/
theorem commit (h : j.Closing store w involved b) (hrun : Journal.commit store j = .ok () j') :
    ∃ w', j' = .ofWorld w' ∧ ∀ address : Address,
      (∀ a ∈ involved, a.hash = address.hash → a = address) →
        w'.balance store address = .ok (b address) := by
  rw [Journal.commit, h.parents_eq] at hrun
  cases happly : World.applyScope store j.scope j.world with
  | error e w' =>
    simp only [happly] at hrun
    cases hrun
  | ok _ w' =>
    simp only [happly] at hrun
    cases hrun
    refine ⟨w', rfl, fun address haddress => ?_⟩
    have hwritten := World.balance_applyScope (h.balances.regular _ List.mem_cons_self) happly
      fun a ha => haddress a (h.mentions a ha)
    have hshown := (balance_of_parents h.parents_eq address).symm.trans
      (h.balances.balance_eq address)
    refine hwritten.trans (Eq.trans ?_ hshown)
    cases j.scope.lookup address <;> rfl

end Closing
end Journal

namespace Transact

variable {α β : Type} {setting : SessionSetting} {t : Transaction} {s s' : Session} {w : World}
  {b : Balances} {f : Frame}

/-! ## A transaction in two parts -/

/-- The tree of a call that has begun. -/
def callTree (t : Transaction) (target : Address) (gas : Nat) : Transact Frame := do
  let code ← reverting (reading (·.code · target))
  reverting (runMessage (message (← read) t .call target code gas))

/-- The tree of a creation that has begun. -/
def createTree (t : Transaction) (gas : Nat) (address : Address) : Transact Frame := do
  emit (.transactCreate t.sender t.value t.data t.gasLimit address)
  reverting (runMessage (message (← read) t .creation address t.data gas))

/-- The part of a transaction up to the end of its tree.  Gives the root frame. -/
def tree (t : Transaction) : Transact Frame := do
  let begun ← begin t
  match t.target with
  | some target => callTree t target begun.1
  | none => createTree t begun.1 (createdAddress t begun.2)

/-- The part of a transaction after its tree. -/
def close (gasLimit : Nat) (f : Frame) : Transact Receipt := do
  let used := gasLimit - f.gas
  let succeeded : Bool := f.state = .completedSuccess
  if succeeded then collect f
  reverting do
    clearEmptyAccounts
    changing Journal.commit
  modify fun s => { s with usedGas := used - if succeeded then refund f used else 0 }
  return ⟨f.exitReason, f.output⟩

theorem call_eq {target : Address} (h : t.target = some target) :
    call t target = tree t >>= close t.gasLimit := by
  simp only [tree, h, callTree, bind_assoc]
  rfl

theorem create_eq (t : Transaction) (gas : Nat) (address : Address) :
    create t gas address = createTree t gas address >>= close t.gasLimit := by
  simp only [createTree, bind_assoc]
  rfl

/-! ## Parts of transactions -/

theorem reading_bind_ends {read : Journal → Store → Except StateError α} {f : α → Transact β}
    {Q : Except ExitReason β → Session → Prop} (herror : ∀ e, Q (.error (.fatal e)) s)
    (hok : ∀ a, read s.journal setting.store = .ok a → Ends (f a setting) s Q) :
    Ends ((reading read >>= f) setting) s Q := by
  refine Ends.bind ?_
  rw [Ends, reading]
  cases hread : read s.journal setting.store with
  | ok a => exact hok a hread
  | error e => exact herror e.toFatal

theorem changing_ends {change : Store → Journal.Change α}
    {Q : Except ExitReason α → Session → Prop}
    (herror : ∀ e j, Q (.error (.fatal e)) { s with journal := j })
    (hok : ∀ a j, change setting.store s.journal = .ok a j → Q (.ok a) { s with journal := j }) :
    Ends (changing change setting) s Q := by
  rw [Ends, changing]
  cases hchange : change setting.store s.journal with
  | ok a j => exact hok a j hchange
  | error e j => exact herror e.toFatal j

theorem reverting_ends {program : Transact α} {Q : Except ExitReason α → Session → Prop}
    (h : Ends (program setting) s fun r s' => match r with
      | .ok a => Q (.ok a) s'
      | .error e => Q (.error e) { s' with journal := s'.journal.revert }) :
    Ends (reverting program setting) s Q := by
  rw [Ends, reverting]
  cases hprogram : program setting s with
  | ok a s' => exact h.of_ok hprogram
  | error e s' => exact h.of_error hprogram

/-- A transaction is rejected that cannot pay its intrinsic cost, or its value. -/
inductive Rejected (setting : SessionSetting) (t : Transaction) (s : Session) : ExitReason → Prop
  | outOfGas (hgas : t.gasLimit < setting.intrinsic t) : Rejected setting t s (.error .outOfGas)
  | outOfFund {balance : Word} (hbalance : s.journal.balance setting.store t.sender = .ok balance)
    (hvalue : balance < t.value) : Rejected setting t s (.error .outOfFund)

/-- How a transaction begins, or fails to, and what it leaves of a session. -/
inductive Begins (setting : SessionSetting) (t : Transaction) (s : Session) :
    Except ExitReason (Nat × Nat) → Session → Prop
  | began {balance : Word} {nonce : Nat} {j : Journal} (hgas : setting.intrinsic t ≤ t.gasLimit)
    (hbalance : s.journal.balance setting.store t.sender = .ok balance) (hvalue : t.value ≤ balance)
    (hnonce : Journal.incrementNonce setting.store t.sender s.journal = .ok nonce j) :
    Begins setting t s (.ok (t.gasLimit - setting.intrinsic t, nonce))
      { s with journal := j, usedGas := 0 }
  | rejected {reason : ExitReason} (h : Rejected setting t s reason) :
    Begins setting t s (.error reason) { s with usedGas := 0 }
  | fatal (e : ExitFatal) : Begins setting t s (.error (.fatal e)) { s with usedGas := 0 }

/-- **A transaction that begins** is covered, and has raised the nonce of its sender; one that
does not has changed nothing. -/
theorem begin_ends : Ends (begin t setting) s (Begins setting t s) := by
  refine bind_ends_of_ok rfl (bind_ends_of_ok rfl ?_)
  by_cases hgas : t.gasLimit < setting.config.schedule.intrinsic t.data t.target.isNone
  · rw [if_pos hgas]
    exact .rejected (.outOfGas hgas)
  rw [if_neg hgas]
  refine reading_bind_ends .fatal fun balance hbalance => ?_
  by_cases hvalue : balance < t.value
  · rw [if_pos hvalue]
    exact .rejected (.outOfFund hbalance hvalue)
  rw [if_neg hvalue]
  refine Ends.bind ?_
  rw [Ends, changing]
  dsimp only
  cases hnonce : Journal.incrementNonce setting.store t.sender s.journal with
  | ok nonce j => exact .began (not_lt.mp hgas) hbalance (BitVec.not_lt.mp hvalue) hnonce
  | error e j =>
    rw [Journal.eq_of_incrementNonce_eq_error setting.store t.sender hnonce]
    exact .fatal e.toFatal

/-- The tree of a message, run on a session. -/
theorem runMessage_run (m : Message) : Ends (reverting (runMessage m) setting) s fun r s' =>
    match r with
    | .ok f => ∃ machine, Lifecycle.runTree setting.toSetting (setting.root m s) = .ok () machine ∧
        f = machine.frame ∧ s' = { s with journal := machine.journal, trace := machine.trace }
    | .error reason => ∃ e, reason = .fatal e := by
  refine reverting_ends ?_
  rw [Ends, runMessage]
  dsimp only
  cases hrun : Lifecycle.runTree setting.toSetting
      ⟨.new setting.config setting.block m, s.journal, s.trace⟩ with
  | ok _ machine => exact ⟨machine, hrun, rfl, rfl⟩
  | error e machine => exact ⟨e, rfl⟩

/-- **The tree of a transaction conserves value**, and there is none if nothing has changed. -/
theorem tree_ends (hb : s.journal.HasBalances setting.store b) (htotal : b.total < 2 ^ 255) :
    Ends (tree t setting) s fun r s' => match r with
      | .ok _ => s'.journal.Totals setting.store b.total ∧ s.journal.Inner s'.journal
      | .error reason => (∃ e, reason = .fatal e) ∨ s'.journal = s.journal := by
  refine Ends.bind (begin_ends.mono fun r s₁ h₁ => ?_)
  cases h₁ with
  | fatal e => exact .inl ⟨e, rfl⟩
  | rejected => exact .inr rfl
  | @began balance nonce j hgas hbalance hle hnonce =>
    obtain rfl := Except.ok.inj (hbalance.symm.trans (hb.balance_eq _))
    have hb₁ := hb.incrementNonce hnonce
    have hinner := (Journal.inner_incrementNonce _ _ _).of_ok hnonce
    -- both kinds of transaction run one message, which the sender can pay
    have hmessage (s₂ : Session) (hs₂ : s₂.journal = j) (m : Message)
        (hcovers : b.Covers m) : Ends (reverting (runMessage m) setting) s₂ fun r s' => match r with
          | .ok _ => s'.journal.Totals setting.store b.total ∧ s.journal.Inner s'.journal
          | .error reason => (∃ e, reason = .fatal e) ∨ s'.journal = s.journal := by
      refine (runMessage_run m).mono fun r s' h => ?_
      cases r with
      | error reason => exact .inl h
      | ok f =>
        obtain ⟨machine, hrun, -, rfl⟩ := h
        have hroot : (setting.root m s₂).journal = j := hs₂
        obtain ⟨htotals, hinner'⟩ := Lifecycle.runTree_conserves rfl
          ⟨b, hroot ▸ hb₁, rfl, fun _ => hcovers, fun h => by cases h⟩ htotal hrun
        exact ⟨htotals, hinner.trans (hroot ▸ hinner')⟩
    dsimp only
    cases t.target with
    | some target =>
      refine Ends.bind (reverting_ends ?_)
      rw [Ends, reading]
      dsimp only
      cases j.code setting.store target with
      | error e => exact .inl ⟨_, rfl⟩
      | ok code =>
        exact bind_ends_of_ok rfl
          (hmessage _ rfl (message setting t .call target code _) hle)
    | none =>
      refine bind_ends_of_ok rfl (bind_ends_of_ok rfl ?_)
      exact hmessage _ rfl (message setting t .creation (createdAddress t nonce) t.data _) hle

/-! ## The end of a transaction -/

variable {involved : Set Address}

/-- **Accounts that are deleted** have nothing. -/
theorem forM_deleteAccount_ends {l : List Address}
    (hs : s.journal.Closing setting.store w involved b) (hl : ∀ a ∈ l, a ∈ involved) :
    Ends ((l.forM fun a => changing fun _ => Journal.deleteAccount a) setting) s fun r s' =>
      r = .ok () ∧ s'.journal.Closing setting.store w involved (b.without l.toFinset) := by
  induction l generalizing s b with
  | nil =>
    refine ⟨rfl, ?_⟩
    rw [List.toFinset_nil, Balances.without_empty]
    exact hs
  | cons address l ih =>
    obtain ⟨haddress, hl⟩ := List.forall_mem_cons.mp hl
    refine bind_ends_of_ok rfl ((ih (hs.deleteAccount haddress rfl) hl).mono fun r s' h => ?_)
    rw [Balances.without_update, ← List.toFinset_cons] at h
    exact h

theorem collect_ends (hs : s.journal.Closing setting.store w involved b)
    (hf : ∀ a ∈ f.selfDestructs.toList, a ∈ involved) :
    Ends (collect f setting) s fun r s' => r = .ok () ∧
      s'.journal.Closing setting.store w involved (b.without f.selfDestructs.toList.toFinset) := by
  refine Ends.bind ((forM_deleteAccount_ends hs hf).mono ?_)
  rintro r s₁ ⟨rfl, h₁⟩
  exact ⟨rfl, h₁⟩

/-- An account that is empty has nothing. -/
theorem balance_of_isEmpty {j : Journal} {store : Store} {address : Address}
    (h : j.HasBalances store b) (hempty : j.isEmpty store address = .ok true) : b address = 0 := by
  obtain ⟨found, hfound, hempty⟩ := exists_of_bind_eq_ok hempty
  have hbalance := h.balance_of_find? hfound
  cases found with
  | none => cases hempty
  | some o =>
    have ho : o.isEmpty = true := Except.ok.inj hempty
    simp only [Overlay.isEmpty, Bool.and_eq_true, decide_eq_true_eq] at ho
    rw [← hbalance]
    exact ho.1.2

/-- **Deleting empty accounts** keeps all balances. -/
theorem clearEmptyAccounts_ends (hs : s.journal.Closing setting.store w involved b) :
    Ends (clearEmptyAccounts setting) s fun r s' => match r with
      | .ok _ => s'.journal.Closing setting.store w involved b
      | .error reason => ∃ e, reason = .fatal e := by
  have hclear {l : List Address} (hl : ∀ a ∈ l, a ∈ involved) {s : Session}
      (hs : s.journal.Closing setting.store w involved b) :
      Ends ((l.forM fun address => do
        if ← reading (·.isEmpty · address) then
          changing fun _ => Journal.deleteAccount address : Transact Unit) setting) s
        fun r s' => match r with
          | .ok _ => s'.journal.Closing setting.store w involved b
          | .error reason => ∃ e, reason = .fatal e := by
    induction l generalizing s with
    | nil => exact hs
    | cons address l ih =>
      obtain ⟨haddress, hl⟩ := List.forall_mem_cons.mp hl
      refine Ends.bind (reading_bind_ends (fun e => ⟨_, rfl⟩) fun empty hempty => ?_)
      cases empty with
      | false => exact ih hl hs
      | true =>
        have hdeleted := hs.deleteAccount haddress rfl
        rw [← balance_of_isEmpty hs.balances hempty, Function.update_eq_self] at hdeleted
        exact ih hl hdeleted
  refine bind_ends_of_ok rfl ?_
  by_cases hclears : setting.config.clearEmptyAccounts
  · rw [if_pos hclears]
    exact bind_ends_of_ok rfl (hclear (fun a ha => hs.mentions a (Scope.lookup_of_touched ha)) hs)
  · rw [if_neg hclears]
    exact hs

/-- **The end of a transaction.**  The accounts to delete have nothing then, and the others what
they had, where hashes tell the addresses that are involved apart. -/
theorem close_ends {gasLimit : Nat} (hs : s.journal.Closing setting.store w involved b)
    (hf : ∀ a ∈ f.deletions, a ∈ involved) : Ends (close gasLimit f setting) s fun r s' =>
      match r with
      | .ok _ => ∃ w', s'.journal = .ofWorld w' ∧ ∀ address : Address,
          (∀ a ∈ involved, a.hash = address.hash → a = address) →
            w'.balance setting.store address = .ok (b.without f.deletions address)
      | .error reason => ∃ e, reason = .fatal e := by
  -- what is left once the accounts that deleted themselves are gone
  have hrest {s : Session} {b : Balances} {succeeded : Bool}
      (hs : s.journal.Closing setting.store w involved b) :
      Ends ((do
        reverting do
          clearEmptyAccounts
          changing Journal.commit
        modify fun s =>
          { s with usedGas := gasLimit - f.gas - if succeeded then refund f (gasLimit - f.gas) else 0 }
        return ⟨f.exitReason, f.output⟩ : Transact Receipt) setting) s fun r s' => match r with
        | .ok _ => ∃ w', s'.journal = .ofWorld w' ∧ ∀ address : Address,
            (∀ a ∈ involved, a.hash = address.hash → a = address) →
              w'.balance setting.store address = .ok (b address)
        | .error reason => ∃ e, reason = .fatal e := by
    refine Ends.bind (reverting_ends (Ends.bind
      ((clearEmptyAccounts_ends hs).mono fun r s₁ h₁ => ?_)))
    cases r with
    | error reason => exact h₁
    | ok _ => exact changing_ends (fun e j => ⟨e, rfl⟩) fun _ j hj => h₁.commit hj
  rw [close]
  dsimp only
  rw [Frame.deletions] at hf ⊢
  by_cases hsucceeded : f.state = .completedSuccess
  · rw [if_pos hsucceeded] at hf ⊢
    rw [if_pos (decide_eq_true hsucceeded)]
    refine Ends.bind ((collect_ends hs fun a ha => hf a (List.mem_toFinset.mpr ha)).mono ?_)
    rintro r s₁ ⟨rfl, h₁⟩
    exact hrest h₁
  · rw [if_neg hsucceeded, Balances.without_empty]
    rw [if_neg fun h => hsucceeded (of_decide_eq_true h)]
    exact hrest hs

end Transact

end Ethereum
