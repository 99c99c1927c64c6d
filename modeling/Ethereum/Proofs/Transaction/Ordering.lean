/-
# What transactions ask for

A transaction that begins asks for one message, whose tree it runs (`Transact.tree_eq`).  The
message has the gas that the intrinsic cost leaves, and then only the nonce of the sender has
changed; a transaction that is rejected has changed nothing (`Transact.order_ends`).  What the
two parts of a transaction come to is what a session keeps of it (`Session.transact_ends`).
-/

import Mathlib
import Ethereum.Proofs.Transaction.Supply

namespace Ethereum
namespace Transact

variable {setting : SessionSetting} {t : Transaction} {s s' : Session}

/-- The message of the root frame of a transaction, which begins. -/
def order (t : Transaction) : Transact Message := do
  let begun ← begin t
  match t.target with
  | some target =>
    let code ← reverting (reading (·.code · target))
    return message (← read) t .call target code begun.1
  | none =>
    let address := createdAddress t begun.2
    emit (.transactCreate t.sender t.value t.data t.gasLimit address)
    return message (← read) t .creation address t.data begun.1

/-- What a creation asks for once it has begun. -/
theorem order_eq_of_creation {gas nonce : Nat} (htarget : t.target = none)
    (hbegin : begin t setting s = .ok (gas, nonce) s') : order t setting s =
      .ok (message setting t .creation (createdAddress t nonce) t.data gas) { s' with
        trace := s'.trace.emit
          (.transactCreate t.sender t.value t.data t.gasLimit (createdAddress t nonce)) } := by
  rw [order, reader_bind_eq_of_ok hbegin, htarget]
  rfl

/-- A transaction runs the tree of what it asks for. -/
theorem tree_eq (t : Transaction) : tree t = order t >>= fun m => reverting (runMessage m) := by
  rw [tree, order, bind_assoc]
  refine bind_congr fun begun => ?_
  cases t.target with
  | some target =>
    simp only [callTree, bind_assoc, pure_bind]
  | none =>
    simp only [createTree, bind_assoc, pure_bind]

/-- What a transaction that has begun asks for, and what it has changed. -/
structure Ordered (setting : SessionSetting) (t : Transaction) (s : Session) (m : Message)
    (s' : Session) : Prop where
  depth_eq : m.depth = 0
  isStatic_eq : m.isStatic = false
  intrinsic_le : setting.intrinsic t ≤ t.gasLimit
  gas_eq : m.gas = t.gasLimit - setting.intrinsic t
  nonce : ∃ nonce, Journal.incrementNonce setting.store t.sender s.journal = .ok nonce s'.journal
  logs_eq : s'.logs = s.logs

/-- **A transaction that has begun** asks for a message, unless the state cannot be read. -/
theorem order_of_begin {begun : Nat × Nat} {s₁ : Session}
    (hbegin : begin t setting s = .ok begun s₁) : Ends (order t setting) s fun r s' => match r with
    | .ok m => Ordered setting t s m s'
    | .error reason => ∃ e, reason = .fatal e := by
  refine bind_ends_of_ok hbegin ?_
  obtain @⟨balance, nonce, j, hgas, -, -, hnonce⟩ := begin_ends.of_ok hbegin
  dsimp only
  cases t.target with
  | some target =>
    refine Ends.bind (reverting_ends ?_)
    rw [Ends, reading]
    dsimp only
    cases j.code setting.store target with
    | error e => exact ⟨_, rfl⟩
    | ok code => exact ⟨rfl, rfl, hgas, rfl, ⟨_, hnonce⟩, rfl⟩
  | none => exact ⟨rfl, rfl, hgas, rfl, ⟨_, hnonce⟩, rfl⟩

/-- **What a transaction asks for**, or why it does not begin. -/
theorem order_ends : Ends (order t setting) s fun r s' => match r with
    | .ok m => Ordered setting t s m s'
    | .error reason => (∃ e, reason = .fatal e) ∨
        Rejected setting t s reason ∧ s' = { s with usedGas := 0 } := by
  cases hbegin : begin t setting s with
  | ok begun s₁ =>
    refine (order_of_begin hbegin).mono fun r s' h => ?_
    cases r with
    | ok m => exact h
    | error reason => exact .inl h
  | error reason s₁ =>
    refine Ends.bind_of_run (fun begun s₂ h => by cases hbegin.symm.trans h) fun e s₂ h => ?_
    cases begin_ends.of_error h with
    | rejected hrejected => exact .inr ⟨hrejected, rfl⟩
    | fatal e => exact .inl ⟨e, rfl⟩

/-- **The tree of a transaction** is that of a message that it asks for. -/
theorem tree_eq_ok {f : Frame} (h : tree t setting s = .ok f s') : ∃ m s₁ machine,
    order t setting s = .ok m s₁ ∧
      Lifecycle.runTree setting.toSetting (setting.root m s₁) = .ok () machine ∧
      f = machine.frame ∧ s' = { s₁ with journal := machine.journal, trace := machine.trace } := by
  rw [tree_eq] at h
  obtain ⟨m, s₁, horder, h⟩ := reader_bind_eq_ok h
  obtain ⟨machine, hrun⟩ := (runMessage_run m).of_ok h
  exact ⟨m, s₁, machine, horder, hrun⟩

/-- A tree that ends is that of its transaction. -/
theorem tree_eq_of_runTree {m : Message} {s₁ : Session} {machine : Machine}
    (horder : order t setting s = .ok m s₁)
    (hrun : Lifecycle.runTree setting.toSetting (setting.root m s₁) = .ok () machine) :
    tree t setting s =
      .ok machine.frame { s₁ with journal := machine.journal, trace := machine.trace } := by
  rw [SessionSetting.root] at hrun
  rw [tree_eq, reader_bind_eq_of_ok horder, reverting, runMessage, hrun]

/-- A tree fails where its transaction is rejected, or fatally. -/
theorem tree_eq_error {reason : ExitReason} (h : tree t setting s = .error reason s') :
    (∃ e, reason = .fatal e) ∨ order t setting s = .error reason s' := by
  rw [tree_eq] at h
  rcases bind_eq_error h with h | ⟨m, s₁, -, h⟩
  · exact .inr h
  · exact .inl ((runMessage_run m).of_error h)

/-! ## The end of a transaction -/

theorem reverting_eq_ok {α : Type} {p : Transact α} {a : α}
    (h : reverting p setting s = .ok a s') : p setting s = .ok a s' := by
  rw [reverting] at h
  cases hp : p setting s with
  | ok b s₁ => rwa [hp] at h
  | error reason s₁ =>
    rw [hp] at h
    cases h

theorem changing_eq_ok {α : Type} {change : Store → Journal.Change α} {a : α}
    (h : changing change setting s = .ok a s') :
    ∃ j, change setting.store s.journal = .ok a j ∧ s' = { s with journal := j } := by
  rw [changing] at h
  cases hchange : change setting.store s.journal with
  | ok b j =>
    rw [hchange] at h
    obtain ⟨rfl, rfl⟩ := EStateM.Result.ok.inj h
    exact ⟨j, rfl, rfl⟩
  | error e j =>
    rw [hchange] at h
    cases h

/-- The program fails in no other way than fatally. -/
def FailsFatally {α : Type} (p : Transact α) : Prop :=
  ∀ setting s, Ends (p setting) s fun r _ => ∀ reason, r = .error reason → ∃ e, reason = .fatal e

section
variable {α β : Type} {p : Transact α}

theorem FailsFatally.bind {f : α → Transact β} (hp : FailsFatally p)
    (hf : ∀ a, FailsFatally (f a)) : FailsFatally (p >>= f) := by
  intro setting s
  refine Ends.bind ((hp setting s).mono fun r s₁ h => ?_)
  cases r with
  | ok a => exact hf a setting s₁
  | error reason => exact fun _ heq => Except.error.inj heq ▸ h reason rfl

theorem FailsFatally.reverting (hp : FailsFatally p) : FailsFatally (reverting p) := by
  intro setting s
  refine reverting_ends ((hp setting s).mono fun r s₁ h => ?_)
  cases r with
  | ok a => exact nofun
  | error reason => exact fun _ heq => Except.error.inj heq ▸ h reason rfl

theorem failsFatally_pure (a : α) : FailsFatally (pure a) := fun _ _ => nofun

theorem failsFatally_modify (change : Session → Session) : FailsFatally (modify change) :=
  fun _ _ => nofun

theorem failsFatally_changing (change : Store → Journal.Change α) :
    FailsFatally (changing change) := fun _ _ =>
  changing_ends (fun _ _ _ h => ⟨_, (Except.error.inj h).symm⟩) fun _ _ _ => nofun

theorem failsFatally_reading (read : Journal → Store → Except StateError α) :
    FailsFatally (reading read) := by
  intro setting s
  rw [Ends, reading]
  cases read s.journal setting.store with
  | ok a =>
    intro reason h
    cases h
  | error e => exact fun _ h => ⟨_, (Except.error.inj h).symm⟩

theorem failsFatally_forM {l : List Address} {f : Address → Transact Unit}
    (hf : ∀ a, FailsFatally (f a)) : FailsFatally (l.forM f) := by
  induction l with
  | nil => exact failsFatally_pure _
  | cons a l ih => exact (hf a).bind fun _ => ih

end

theorem failsFatally_clearEmptyAccounts : FailsFatally clearEmptyAccounts := by
  refine FailsFatally.bind (fun _ _ => nofun) fun _ => ?_
  split
  · refine FailsFatally.bind (fun _ _ => nofun) fun _ => failsFatally_forM fun address => ?_
    refine (failsFatally_reading _).bind fun empty => ?_
    split
    · exact failsFatally_changing _
    · exact failsFatally_pure _
  · exact failsFatally_pure _

/-- What comes back of the gas that a root frame has used. -/
def refunded (f : Frame) (used : Nat) : Nat :=
  if f.state = .completedSuccess then refund f used else 0

theorem refunded_le (f : Frame) (used : Nat) : refunded f used ≤ used / 2 := by
  rw [refunded]
  split
  · exact Nat.min_le_left _ _
  · exact Nat.zero_le _

/-- Takes over what a root frame leaves, if it succeeded. -/
def takeOver (f : Frame) : Transact Unit :=
  if f.state = .completedSuccess then collect f else pure ()

/-- Deletes empty accounts and commits the scope of the transaction. -/
def settle : Transact Unit :=
  reverting do
    clearEmptyAccounts
    changing Journal.commit

/-- Counts the gas of a transaction, and gives its receipt. -/
def account (gasLimit : Nat) (f : Frame) : Transact Receipt := do
  modify fun s => { s with usedGas := gasLimit - f.gas - refunded f (gasLimit - f.gas) }
  return ⟨f.exitReason, f.output⟩

/-- A transaction is closed in three parts. -/
theorem close_eq_parts (gasLimit : Nat) (f : Frame) :
    close gasLimit f = takeOver f >>= fun _ => settle >>= fun _ => account gasLimit f := by
  rw [close, takeOver, account]
  by_cases h : f.state = .completedSuccess
  · simp only [refunded, if_pos h, decide_eq_true h, if_true]
    rfl
  · simp only [refunded, if_neg h, decide_eq_false h, Bool.false_eq_true, if_false, pure_bind]
    rfl

/-- **A transaction that ran its tree** fails only fatally. -/
theorem failsFatally_close (gasLimit : Nat) (f : Frame) : FailsFatally (close gasLimit f) := by
  have htakeOver : FailsFatally (takeOver f) := by
    rw [takeOver]
    split
    · exact (failsFatally_forM fun _ => failsFatally_changing _).bind fun _ => failsFatally_modify _
    · exact failsFatally_pure _
  have hsettle : FailsFatally settle :=
    (failsFatally_clearEmptyAccounts.bind fun _ => failsFatally_changing _).reverting
  have haccount : FailsFatally (account gasLimit f) :=
    (failsFatally_modify _).bind fun _ => failsFatally_pure _
  rw [close_eq_parts]
  exact htakeOver.bind fun _ => hsettle.bind fun _ => haccount

/-- **What a transaction gives** is why its root frame ended, and the output of the frame. -/
theorem close_spec {gasLimit : Nat} {f : Frame} {receipt : Receipt}
    (h : close gasLimit f setting s = .ok receipt s') : ∃ s₁ s₂,
      takeOver f setting s = .ok () s₁ ∧ settle setting s₁ = .ok () s₂ ∧
      receipt = ⟨f.exitReason, f.output⟩ ∧
      s' = { s₂ with usedGas := gasLimit - f.gas - refunded f (gasLimit - f.gas) } := by
  rw [close_eq_parts] at h
  obtain ⟨_, s₁, htakeOver, h⟩ := reader_bind_eq_ok h
  obtain ⟨_, s₂, hsettle, h⟩ := reader_bind_eq_ok h
  obtain ⟨rfl, rfl⟩ := EStateM.Result.ok.inj h
  exact ⟨s₁, s₂, htakeOver, hsettle, rfl, rfl⟩

end Transact

namespace Session

open Transact

@[simp] theorem journal_opened (t : Transaction) (s : Session) :
    (s.opened t).journal = s.journal := by
  rw [opened]
  split <;> rfl

@[simp] theorem logs_opened (t : Transaction) (s : Session) : (s.opened t).logs = s.logs := by
  rw [opened]
  split <;> rfl

/-- **What a session keeps of a transaction** is what its two parts come to. -/
theorem transact_ends (setting : SessionSetting) (t : Transaction) (s : Session) :
    Ends ((tree t >>= close t.gasLimit) setting) (s.opened t) fun r s₁ =>
      (∃ trace, (s.transact setting t).2 = { s₁ with trace }) ∧
        (s.transact setting t).1 = match r with
          | .ok receipt => receipt
          | .error reason => ⟨reason, []⟩ := by
  obtain ⟨address, heq⟩ := transact_eq setting t s
  rw [heq, Ends]
  cases (tree t >>= close t.gasLimit) setting (s.opened t) with
  | ok receipt s₁ => exact ⟨⟨_, rfl⟩, rfl⟩
  | error reason s₁ => exact ⟨⟨_, rfl⟩, rfl⟩

end Session
end Ethereum
