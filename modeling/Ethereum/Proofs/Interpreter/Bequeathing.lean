/-
# What an account leaves

An account that is deleted leaves its balance to a beneficiary, in three changes: the beneficiary is
found or created, its balance is raised by what the account had, and the balance of the account is
lowered by as much.  Where the balances are known, none of the three can fail
(`Journal.HasBalances.exists_bequeath`), and as long as all balances together are small enough
nothing saturates.  So an account that leaves its balance to another one has nothing left, and the
other one has all of it on top of its own (`Balances.leaves_bequeath`).  An account that is its own
beneficiary is raised and lowered by the same amount, and keeps what it had: the balance that is
taken off is the one from before, not the one that is there by then.  It is not lost before the
account is deleted, which is at the end of the transaction.  A step that pays for the deletion does
just that, and ends the code (`Run.selfdestruct_leaves`).
-/

import Mathlib
import Ethereum.Proofs.Interpreter.Effects
import Ethereum.Proofs.Interpreter.Refusing
import Ethereum.Proofs.State.Balances

namespace Ethereum

/-! ## Balances that are left -/

namespace Balances

/-- What one account had is left to another, or stays where it is if it is left to the account
itself. -/
structure Leaves (b b' : Balances) (own beneficiary : Address) : Prop where
  emptied : beneficiary ≠ own → b' own = 0
  gained : beneficiary ≠ own → (b' beneficiary).toNat = (b beneficiary).toNat + (b own).toNat
  kept : beneficiary = own → b' own = b own
  elsewhere : ∀ a, a ≠ own → a ≠ beneficiary → b' a = b a

/-- **A bequest** empties the account that leaves it, unless it leaves it to itself. -/
theorem leaves_bequeath {b : Balances} {own beneficiary : Address} (htotal : b.total < 2 ^ 255) :
    b.Leaves (b.bequeath own beneficiary) own beneficiary := by
  have hown := b.le_total own
  have hbeneficiary := b.le_total beneficiary
  have hraised : (Word.satAdd (b beneficiary) (b own)).toNat =
      (b beneficiary).toNat + (b own).toNat := by
    rw [Word.satAdd_eq, BitVec.toNat_ofNat]
    omega
  rw [bequeath, lower, raise]
  refine ⟨fun hne => ?_, fun hne => ?_, fun heq => ?_, fun a ha ha' => ?_⟩
  · rw [Function.update_self, Function.update_of_ne hne.symm, Word.satSub_eq, Nat.sub_self]
    rfl
  · rw [Function.update_of_ne hne, Function.update_self, hraised]
  · subst heq
    -- the raised balance is lowered by the balance from before
    rw [Function.update_self, Function.update_self, Word.satSub_eq, hraised, Nat.add_sub_cancel,
      BitVec.ofNat_toNat, BitVec.setWidth_eq]
  · rw [Function.update_of_ne ha, Function.update_of_ne ha']

end Balances

/-- **A bequest is made** where the balances are known: none of its changes can fail. -/
theorem Journal.HasBalances.exists_bequeath {store : Store} {j : Journal} {b : Balances}
    (h : j.HasBalances store b) (own beneficiary : Address) :
    ∃ (j₁ j₂ j₃ : Journal) (raised lowered : Word),
      Journal.getOrCreate store beneficiary j = .ok () j₁ ∧
      Journal.incrementBalance store beneficiary (b own) j₁ = .ok raised j₂ ∧
      Journal.decrementBalance store own (b own) j₂ = .ok lowered j₃ ∧
      j₃.HasBalances store (b.bequeath own beneficiary) := by
  obtain ⟨o, hfound⟩ := h.exists_findOrFresh beneficiary
  have hcreate := getOrCreate_eq hfound
  have h₁ := h.getOrCreate hcreate
  obtain ⟨o₁, hfound₁⟩ := h₁.exists_findOrFresh beneficiary
  have hraise := incrementBalance_eq hfound₁ (b own)
  have h₂ := h₁.incrementBalance hraise
  obtain ⟨o₂, hfound₂⟩ := h₂.exists_findOrFresh own
  have hlower := decrementBalance_eq hfound₂ (b own)
  exact ⟨_, _, _, _, _, hcreate, hraise, hlower, h₂.decrementBalance hlower⟩

/-! ## Instructions -/

/-- The own account of a frame is scheduled for its deletion, and its balance is left to a
beneficiary. -/
structure Machine.Bequeathed (c : Context) (m : Machine) (b : Balances) (beneficiary : Address)
    (m' : Machine) : Prop where
  selfDestructs_eq :
    m'.frame.selfDestructs = m.frame.selfDestructs.insert m.frame.message.recipient
  balances : m'.journal.HasBalances c.store (b.bequeath m.frame.message.recipient beneficiary)

/-- **The deletion of the own account** leaves the balance to the beneficiary, and ends the code. -/
theorem Instruction.selfdestruct_bequeaths {c : Context} {m : Machine} {b : Balances} {w : Word}
    (hb : m.journal.HasBalances c.store b) (hw : m.frame.stack.items[0]? = some w) :
    Ends (selfdestruct.execute c) m fun r m' => r = .error (.succeed .selfDestructed) ∧
      m.Bequeathed c b (Word.toAddress w) m' := by
  refine Ends.bind (Exec.pop_bind_restacks (fun hempty => ?_) fun w' stack hitems => ?_)
  · rw [hempty] at hw
    cases hw
  obtain rfl : w' = w := by
    rw [hitems] at hw
    exact Option.some.inj hw
  obtain ⟨j₁, j₂, j₃, raised, lowered, hcreate, hraise, hlower, hleft⟩ :=
    hb.exists_bequeath m.frame.message.recipient (Word.toAddress w')
  refine bind_ends_of_ok rfl (bind_ends_of_ok (Exec.reading_eq (hb.balance_eq _)) ?_)
  refine bind_ends_of_ok (Machine.changing_eq hcreate) ?_
  refine bind_ends_of_ok (Machine.changing_eq hraise) ?_
  refine bind_ends_of_ok (Machine.changing_eq hlower) ?_
  exact ⟨rfl, rfl, hleft⟩

/-! ## Steps -/

namespace Run

variable {c : Context} {m : Machine} {b : Balances} {cost : Nat}

open Instruction

/-- A step that pays for the deletion of the own account leaves the balance to the beneficiary. -/
theorem step_bequeaths {w : Word} (hb : m.journal.HasBalances c.store b)
    (hpc : m.frame.pc < m.frame.program.size)
    (hi : m.frame.instruction c.instructions = .ok .selfdestruct)
    (hcost : selfdestruct.cost c m.frame m.journal = .ok cost) (hle : cost ≤ m.frame.gas)
    (hw : m.frame.operand 0 = .ok w) :
    Ends (step c) m fun r m' => r = .ok () ∧ m'.frame.state = .codeSuccess ∧
      m'.frame.exit = some (.succeed .selfDestructed) ∧ m.Bequeathed c b (Word.toAddress w) m' := by
  have hperform : Ends (selfdestruct.perform c) m fun r m' =>
      r = .error (.succeed .selfDestructed) ∧ m.Bequeathed c b (Word.toAddress w) m' := by
    refine perform_ends_of_charged hcost hle fun m₁ hpaid => ?_
    have hb₁ : m₁.journal.HasBalances c.store b := hpaid.journal_eq ▸ hb
    have hw₁ : m₁.frame.stack.items[0]? = some w := by
      rw [hpaid.frame_eq]
      exact Frame.getElem?_of_operand hw
    refine (selfdestruct_bequeaths hb₁ hw₁).mono fun r m' h => ⟨h.1, ?_⟩
    obtain ⟨-, hscheduled, hleft⟩ := h
    rw [hpaid.frame_eq] at hscheduled hleft
    exact ⟨hscheduled, hleft⟩
  refine step_ends_of_instruction hpc hi (perform_ends_of hperform (fun control m' h => ?_)
    (fun reason m' f h hleave => ?_) fun e m' h => ?_)
  · cases h.1
  · obtain ⟨hr, hscheduled, hleft⟩ := h
    cases hr
    cases hleave
    exact ⟨rfl, rfl, rfl, hscheduled, hleft⟩
  · cases h.1

/-- **What an account leaves.**  Let all balances be known, with a total below `2 ^ 255`.  A step that
pays for the deletion of the own account returns; the code has ended well, the account is scheduled,
and its whole balance has gone to the beneficiary, while all others have what they had.  Only an
account that is its own beneficiary is not emptied: it keeps what it had. -/
theorem selfdestruct_leaves (hb : m.journal.HasBalances c.store b) (htotal : b.total < 2 ^ 255)
    (hpc : m.frame.pc < m.frame.program.size)
    (hi : m.frame.instruction c.instructions = .ok .selfdestruct)
    (hcost : selfdestruct.cost c m.frame m.journal = .ok cost) (hle : cost ≤ m.frame.gas) :
    ∃ (w : Word) (b' : Balances) (m' : Machine), m.frame.operand 0 = .ok w ∧
      step c m = .ok () m' ∧ m'.frame.state = .codeSuccess ∧
      m'.frame.exit = some (.succeed .selfDestructed) ∧
      m'.frame.selfDestructs = m.frame.selfDestructs.insert m.frame.message.recipient ∧
      (∀ a, m'.journal.balance c.store a = .ok (b' a)) ∧
      b.Leaves b' m.frame.message.recipient (Word.toAddress w) := by
  obtain ⟨_, -, hread⟩ := exists_of_bind_eq_ok hcost
  obtain ⟨w, hw, -⟩ := exists_of_bind_eq_ok hread
  have hoperand := liftM_eq_ok hw
  have hends := step_bequeaths hb hpc hi hcost hle hoperand
  cases hstep : step c m with
  | error e m' => cases (hends.of_error hstep).1
  | ok _ m' =>
    obtain ⟨-, hstate, hexit, hscheduled, hleft⟩ := hends.of_ok hstep
    exact ⟨w, _, m', hoperand, rfl, hstate, hexit, hscheduled, hleft.balance_eq,
      Balances.leaves_bequeath htotal⟩

/-! ### An account with 10 and one with 7 -/

/-- A frame that is about to delete account 2, which has 10, in favour of an heir.  Account 3 has
7. -/
def testator (heir : Word) : Machine where
  frame := { Frame.ofMessage {
      kind := .call, sender := 1, recipient := 2, contract := 2, originator := 1, gasPrice := 0,
      value := 0, apparentValue := 0, input := [], code := [0xff], gas := 100000, depth := 0,
      isStatic := false } ⟨0, 0, 0, 0, 0, #[]⟩ 1024 Quantity.max with
    state := .codeExecuting, stack := ⟨[heir], 1023⟩ }
  journal := ((Journal.ofWorld .empty).put (.fresh 2 1 10)).put (.fresh 3 1 7)
  trace := .off

/-- What accounts 2 and 3 have. -/
def estates : Balances := Function.update (Function.update (fun _ => 0) 2 10) 3 7

theorem hasBalances_testator (heir : Word) :
    (testator heir).journal.HasBalances bareContext.store estates := by
  have hnone : (Journal.ofWorld .empty).HasBalances bareContext.store fun _ => 0 := by
    refine ⟨List.forall_mem_singleton.mpr Scope.regular_empty, fun address => ?_⟩
    rw [Journal.balance, Journal.find?_empty]
    rfl
  have htwo : (Overlay.fresh 2 1 10).LiesAt 2 := ⟨rfl, by decide⟩
  have hthree : (Overlay.fresh 3 1 7).LiesAt 3 := ⟨rfl, by decide⟩
  exact (hnone.put htwo).put hthree

theorem total_estates : estates.total = 17 := by
  have hnone : Balances.total (fun _ => 0) = 0 := Finset.sum_eq_zero fun _ _ => BitVec.toNat_zero
  have htwo : (fun _ => 0 : Balances) 2 = 0 := rfl
  have hthree : (Function.update (fun _ => 0) 2 10 : Balances) 3 = 0 :=
    Function.update_of_ne (by decide) _ _
  rw [estates, Balances.total_update_of_zero hthree, Balances.total_update_of_zero htwo, hnone]
  rfl

/-- Account 3 gets the 10 of account 2, but account 2 keeps them as its own heir. -/
theorem selfdestruct_leaves_of_testator :
    (∃ m', step bareContext (testator 3) = .ok () m' ∧
      m'.journal.balance bareContext.store 2 = .ok 0 ∧
      m'.journal.balance bareContext.store 3 = .ok 17) ∧
    ∃ m', step bareContext (testator 2) = .ok () m' ∧
      m'.journal.balance bareContext.store 2 = .ok 10 ∧
      m'.journal.balance bareContext.store 3 = .ok 7 := by
  have htotal : estates.total < 2 ^ 255 := by rw [total_estates]; decide
  have hcharged (heir : Word) (h : heir = 2 ∨ heir = 3) :
      (testator heir).frame.pc < (testator heir).frame.program.size ∧
      (testator heir).frame.instruction bareContext.instructions = .ok .selfdestruct ∧
      selfdestruct.cost bareContext (testator heir).frame (testator heir).journal = .ok 5000 ∧
      5000 ≤ (testator heir).frame.gas := by
    rcases h with rfl | rfl <;> decide +kernel
  have hleaves (heir : Word) (h : heir = 2 ∨ heir = 3) : ∃ b' m',
      step bareContext (testator heir) = .ok () m' ∧
      (∀ a, m'.journal.balance bareContext.store a = .ok (b' a)) ∧
      estates.Leaves b' 2 (Word.toAddress heir) := by
    obtain ⟨hpc, hi, hcost, hle⟩ := hcharged heir h
    have hb := hasBalances_testator heir
    have hoperand : (testator heir).frame.operand 0 = .ok heir := rfl
    have hown : (testator heir).frame.message.recipient = 2 := rfl
    generalize testator heir = m at *
    obtain ⟨w, b', m', hw, hstep, -, -, -, hbalance, hleft⟩ :=
      selfdestruct_leaves hb htotal hpc hi hcost hle
    cases hoperand.symm.trans hw
    exact ⟨b', m', hstep, hbalance, hown ▸ hleft⟩
  refine ⟨?_, ?_⟩
  · obtain ⟨b', m', hstep, hbalance, hleft⟩ := hleaves 3 (.inr rfl)
    have hemptied := hleft.emptied (by decide)
    have hgained : b' 3 = 17 := BitVec.eq_of_toNat_eq (hleft.gained (by decide))
    exact ⟨m', hstep, hemptied ▸ hbalance 2, hgained ▸ hbalance 3⟩
  · obtain ⟨b', m', hstep, hbalance, hleft⟩ := hleaves 2 (.inl rfl)
    have hkept : b' 2 = 10 := hleft.kept rfl
    have helsewhere : b' 3 = 7 := hleft.elsewhere 3 (by decide) (by decide)
    exact ⟨m', hstep, hkept ▸ hbalance 2, helsewhere ▸ hbalance 3⟩

end Run
end Ethereum
