/-
# What steps do

An instruction is paid for before it is executed, and where it cannot be paid for nothing
changes (`Instruction.Performed`).  A step performs an instruction, or stops the code, or
halts the frame (`Run.Stepped`).  What all steps preserve, a run of steps preserves
(`Run.steps_ends`).
-/

import Mathlib
import Ethereum.Interpreter.Step
import Ethereum.Proofs.Interpreter.Outcome
import Ethereum.Proofs.State.Steady

namespace Ethereum

/-- The machine once a price is paid. -/
structure Machine.Paid (cost : Nat) (m m₁ : Machine) : Prop where
  cost_le : cost ≤ m.frame.gas
  journal_eq : m₁.journal = m.journal
  frame_eq : m₁.frame = { m.frame with gas := m.frame.gas - cost, currentCost := cost }

namespace Instruction

variable {c : Context} {m m' : Machine} {i : Instruction} {r : Except ExitReason Control}

/-- How an instruction ends that has to be paid for. -/
inductive Performed (c : Context) (m : Machine) (i : Instruction) :
    Except ExitReason Control → Machine → Prop
  | unpaid {e : ExitReason} {m' : Machine} (hjournal : m'.journal = m.journal)
    (hframe : m'.frame = m.frame) : Performed c m i (.error e) m'
  | paid {cost : Nat} {m₁ m' : Machine} {r : Except ExitReason Control}
    (hcost : i.cost c m.frame m.journal = .ok cost) (hpaid : m.Paid cost m₁)
    (houtcome : Outcome c m₁ i r m') : Performed c m i r m'

/-- **Performing an instruction** fails in its price, or for want of gas, or executes it once it is
paid for. -/
theorem perform_ends_of_price {Q : Except ExitReason Control → Machine → Prop}
    (hunpriced : ∀ reason t, i.cost c m.frame m.journal = .error reason →
      Q (.error reason) { m with trace := t })
    (hunpaid : ∀ cost t, i.cost c m.frame m.journal = .ok cost → m.frame.gas < cost →
      Q (.error (.error .outOfGas)) { m with trace := t })
    (hpaid : ∀ cost t, i.cost c m.frame m.journal = .ok cost → cost ≤ m.frame.gas →
      Ends (i.execute c)
        ⟨{ m.frame with gas := m.frame.gas - cost, currentCost := cost }, m.journal, t⟩ Q) :
    Ends (i.perform c) m Q := by
  refine bind_ends_of_ok rfl (bind_ends_of_ok rfl (bind_ends_of_ok rfl ?_))
  refine Exec.lift_bind_ends (fun reason hcost => hunpriced reason _ hcost) fun cost hcost => ?_
  refine Ends.bind ?_
  rw [Ends, Exec.charge, Machine.charge_eq]
  by_cases hle : cost ≤ m.frame.gas
  · rw [if_pos hle]
    exact bind_ends_of_ok rfl (hpaid cost _ hcost hle)
  · rw [if_neg hle]
    exact hunpaid cost _ hcost (not_le.mp hle)

theorem perform_ends (i : Instruction) : Ends (i.perform c) m (Performed c m i) := by
  refine perform_ends_of_price (fun _ _ _ => .unpaid rfl rfl) (fun _ _ _ _ => .unpaid rfl rfl)
    fun cost t hcost hle => (execute_outcome i).mono fun r m' houtcome => ?_
  refine .paid hcost ?_ houtcome
  exact ⟨hle, rfl, rfl⟩

/-! ## What all instructions preserve -/

/-- **An instruction** leads through mild changes of single accounts, unless it fails fatally. -/
theorem Outcome.leads_or_fails {R : Journal → Journal → Prop} [Std.Refl R] [IsTrans Journal R]
    (hR : Journal.ThroughMildUpdates c.store R) (h : Outcome c m i r m') :
    R m.journal m'.journal ∨ (∃ e, r = .error (.fatal e)) ∧ m.journal.Inner m'.journal := by
  cases h with
  | quiet h => exact .inl (h.journal_eq ▸ refl _)
  | wrote key value amount hwrite => exact .inl ((hR.setSlot _ _ _ _).of_ok hwrite)
  | logged topics data hjournal => exact .inl (hjournal ▸ refl _)
  | created value initCode salt nonce hi hspawn hnonce =>
    exact .inl ((hR.incrementNonce _ _).of_ok hnonce)
  | called target value input code split resume hsplit hvalue hspawn hjournal =>
    exact .inl (hjournal ▸ refl _)
  | refused value split hr hsplit hvalue hjournal => exact .inl (hjournal ▸ refl _)
  | destroyed beneficiary balance raised lowered hbalance hcreate hraise hlower =>
    have hcreated := (hR.getOrCreate _ _).of_ok hcreate
    have hraised := (hR.incrementBalance _ _ _).of_ok hraise
    exact .inl (IsTrans.trans _ _ _ hcreated
      (IsTrans.trans _ _ _ hraised ((hR.decrementBalance _ _ _).of_ok hlower)))
  | fatal h => exact .inr ⟨⟨_, rfl⟩, h⟩

/-- So it does if it does not fail fatally. -/
theorem Outcome.leads {R : Journal → Journal → Prop} [Std.Refl R] [IsTrans Journal R]
    (hR : Journal.ThroughMildUpdates c.store R) (h : Outcome c m i r m')
    (hr : ∀ e, r ≠ .error (.fatal e)) : R m.journal m'.journal :=
  (h.leads_or_fails hR).resolve_right fun ⟨⟨e, he⟩, _⟩ => hr e he

/-- An instruction changes the journal in its innermost scope only. -/
theorem Outcome.inner (h : Outcome c m i r m') : m.journal.Inner m'.journal :=
  (h.leads_or_fails (Journal.inner_throughUpdates c.store).mild).elim id And.right

theorem Performed.inner (h : Performed c m i r m') : m.journal.Inner m'.journal := by
  cases h with
  | unpaid hjournal => exact hjournal ▸ .refl _
  | paid hcost hpaid houtcome => exact hpaid.journal_eq ▸ houtcome.inner

/-- An instruction that does not fail fatally leaves the frame with its message and in its
state. -/
theorem Outcome.kept (h : Outcome c m i r m') (hr : ∀ e, r ≠ .error (.fatal e)) :
    m.frame.Kept m'.frame := by
  cases h with
  | quiet h => exact h.frame_quiet.kept
  | wrote key value amount hwrite hframe => exact hframe.kept
  | logged topics data hjournal hframe => exact hframe.kept
  | created value initCode salt nonce hi hspawn hnonce hframe => exact hframe.kept
  | called target value input code split resume hsplit hvalue hspawn hjournal hframe =>
    exact hframe.kept
  | refused value split hr hsplit hvalue hjournal hframe => exact hframe.kept
  | destroyed beneficiary balance raised lowered hbalance hcreate hraise hlower hframe =>
    exact hframe.kept
  | fatal h => exact absurd rfl (hr _)

theorem Performed.kept (h : Performed c m i r m') (hr : ∀ e, r ≠ .error (.fatal e)) :
    m.frame.Kept m'.frame := by
  cases h with
  | unpaid hjournal hframe => exact hframe ▸ rfl
  | @paid cost m₁ _ _ hcost hpaid houtcome =>
    have hkept : m.frame.Kept m₁.frame := by
      rw [hpaid.frame_eq]
      rfl
    exact hkept.trans (houtcome.kept hr)

end Instruction

namespace Run

variable {c : Context} {m m' : Machine} {r : Except ExitFatal Unit}

open Instruction

/-- How a step ends, and what it leaves of a machine. -/
inductive Stepped (c : Context) (m : Machine) : Except ExitFatal Unit → Machine → Prop
  /-- The code ended. -/
  | past {m' : Machine} (hpc : m.frame.program.size ≤ m.frame.pc)
    (hjournal : m'.journal = m.journal)
    (hframe : m'.frame = m.frame.stopIn .codeSuccess (.succeed .stopped)) : Stepped c m (.ok ()) m'
  /-- There is no instruction, or the stack does not suit it. -/
  | rejected {e : ExitError} {m' : Machine}
    (he : m.frame.instruction c.instructions = .error e) (hjournal : m'.journal = m.journal)
    (hframe : m'.frame = m.frame.halt e) : Stepped c m (.ok ()) m'
  | continued {i : Instruction} {control : Control} {m₁ m' : Machine}
    (hi : m.frame.instruction c.instructions = .ok i) (h : Performed c m i (.ok control) m₁)
    (hjournal : m'.journal = m₁.journal)
    (hframe : m'.frame = m₁.frame.advance i.size control) : Stepped c m (.ok ()) m'
  | left {i : Instruction} {reason : ExitReason} {m₁ m' : Machine}
    (hi : m.frame.instruction c.instructions = .ok i) (h : Performed c m i (.error reason) m₁)
    (hjournal : m'.journal = m₁.journal) (hframe : m₁.frame.leave reason = .ok m'.frame) :
    Stepped c m (.ok ()) m'
  | fatal {i : Instruction} {e : ExitFatal} {m' : Machine}
    (hi : m.frame.instruction c.instructions = .ok i)
    (h : Performed c m i (.error (.fatal e)) m') : Stepped c m (.error e) m'

/-- **A step** stops the code behind its end, halts the frame where there is no instruction, and
else performs the instruction. -/
theorem step_ends_of {Q : Except ExitFatal Unit → Machine → Prop}
    (hpast : m.frame.program.size ≤ m.frame.pc →
      Q (.ok ()) { m with frame := m.frame.stopIn .codeSuccess (.succeed .stopped) })
    (hrejected : ∀ e, m.frame.instruction c.instructions = .error e →
      Q (.ok ()) { m with frame := m.frame.halt e })
    (hperform : ∀ i, m.frame.pc < m.frame.program.size →
      m.frame.instruction c.instructions = .ok i → Ends (perform i c) m Q) :
    Ends (step c) m Q := by
  refine bind_ends_of_ok rfl ?_
  by_cases hpc : m.frame.pc < m.frame.program.size
  · rw [if_pos hpc]
    refine bind_ends_of_ok rfl ?_
    cases hi : m.frame.instruction c.instructions with
    | ok i => exact hperform i hpc hi
    | error e => exact hrejected e hi
  · rw [if_neg hpc]
    exact hpast (not_lt.mp hpc)

/-- A step of a frame that is at an instruction. -/
theorem step_ends_of_instruction {i : Instruction} {Q : Except ExitFatal Unit → Machine → Prop}
    (hpc : m.frame.pc < m.frame.program.size)
    (hi : m.frame.instruction c.instructions = .ok i) (h : Ends (perform i c) m Q) :
    Ends (step c) m Q := by
  refine step_ends_of (fun h' => absurd hpc (not_lt.mpr h')) (fun e he => ?_) fun i' _ hi' => ?_
  · cases hi.symm.trans he
  · cases hi.symm.trans hi'
    exact h

/-- **Performing an instruction** moves the frame on, takes it out of its code, or fails fatally. -/
theorem perform_ends_of {i : Instruction} {P : Except ExitReason Control → Machine → Prop}
    {Q : Except ExitFatal Unit → Machine → Prop} (h : Ends (i.perform c) m P)
    (hnext : ∀ control m₁, P (.ok control) m₁ →
      Q (.ok ()) { m₁ with frame := m₁.frame.advance i.size control })
    (hleave : ∀ reason m₁ f, P (.error reason) m₁ → m₁.frame.leave reason = .ok f →
      Q (.ok ()) { m₁ with frame := f })
    (hfatal : ∀ e m₁, P (.error (.fatal e)) m₁ → Q (.error e) m₁) : Ends (perform i c) m Q := by
  rw [Ends, perform]
  cases hp : i.perform c m with
  | ok control m₁ => exact hnext control m₁ (h.of_ok hp)
  | error reason m₁ =>
    replace h := h.of_error hp
    dsimp only
    cases hleft : m₁.frame.leave reason with
    | ok f => exact hleave reason m₁ f h hleft
    | error e =>
      have hreason : reason = .fatal e := by
        cases reason with
        | fatal e' => exact congrArg _ (Except.error.inj hleft)
        | _ => cases hleft
      exact hfatal e m₁ (hreason ▸ h)

/-- **What a step does.** -/
theorem step_ends : Ends (step c) m (Stepped c m) :=
  step_ends_of (fun hpc => .past hpc rfl rfl) (fun _ he => .rejected he rfl rfl) fun i _ hi =>
    perform_ends_of (Instruction.perform_ends i) (fun _ _ h => .continued hi h rfl rfl)
      (fun _ _ _ h hleave => .left hi h rfl hleave) fun _ _ h => .fatal hi h

theorem Stepped.inner (h : Stepped c m r m') : m.journal.Inner m'.journal := by
  cases h with
  | past hpc hjournal => exact hjournal ▸ .refl _
  | rejected he hjournal => exact hjournal ▸ .refl _
  | continued hi h hjournal => exact hjournal ▸ h.inner
  | left hi h hjournal => exact hjournal ▸ h.inner
  | fatal hi h => exact h.inner

/-- **What every step preserves, a run preserves.** -/
theorem steps_ends {P : Except ExitFatal Unit → Machine → Prop}
    (hstep : ∀ m r m', m.frame.state = .codeExecuting → P (.ok ()) m → Stepped c m r m' → P r m')
    (n : Nat) (hm : P (.ok ()) m) : Ends (steps n c) m P := by
  induction n generalizing m with
  | zero => exact hm
  | succ n ih =>
    refine bind_ends_of_ok rfl ?_
    split
    · rename_i hstate
      refine Ends.bind (step_ends.mono fun r m₁ h => ?_)
      have hm₁ := hstep m r m₁ hstate hm h
      cases r with
      | ok => exact ih hm₁
      | error => exact hm₁
    · exact hm

theorem steps_eq_of_ne {n : Nat} (hstate : m.frame.state ≠ .codeExecuting) :
    steps n c m = .ok () m := by
  cases n with
  | zero => rfl
  | succ n =>
    change (if m.frame.state = .codeExecuting then step >>= fun _ => steps n else pure () : Run Unit)
      c m = .ok () m
    rw [if_neg hstate]
    rfl

end Run
end Ethereum
