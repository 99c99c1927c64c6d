/-
# What parents take over

A parent goes on with the gas that its child has left and, if the child succeeded, with its
logs, deletions and refunds (`Frame.inherit`).  Apart from these only the stack, the memory
and the return data change (`Machine.resume_ends`).
-/

import Mathlib
import Ethereum.Interpreter.Resume
import Ethereum.Proofs.Interpreter.Quiet

namespace Ethereum

/-- The frame of a parent with what its child leaves it. -/
def Frame.inherit (f child : Frame) : Frame :=
  if child.state = .completedSuccess then
    ((f.giveGas child.gas).absorb child).addRefund child.refund
  else f.giveGas child.gas

/-- The frame of a parent that executes on after its child. -/
def Frame.resumed (f child : Frame) : Frame :=
  { f.inherit child with resume := none, state := .codeExecuting }

/-- A child that failed leaves nothing but gas. -/
theorem Frame.inherit_of_ne {f child : Frame} (h : child.state ≠ .completedSuccess) :
    f.inherit child = f.giveGas child.gas := if_neg h

/-- A parent has its own accounts to delete and those of its child. -/
theorem Frame.mem_absorb {f child : Frame} {address : Address} :
    address ∈ (f.absorb child).selfDestructs ↔
      address ∈ f.selfDestructs ∨ address ∈ child.selfDestructs := by
  have hinsert (l : List Address) (s : Std.ExtTreeSet Address) :
      address ∈ l.foldl (·.insert ·) s ↔ address ∈ s ∨ address ∈ l := by
    induction l generalizing s with
    | nil => simp
    | cons a l ih =>
      rw [List.foldl_cons, ih, Std.ExtTreeSet.mem_insert, Std.compare_eq_iff_eq, List.mem_cons,
        eq_comm, or_assoc, or_left_comm]
  show address ∈ child.selfDestructs.foldl (·.insert ·) f.selfDestructs ↔ _
  rw [Std.ExtTreeSet.foldl_eq_foldl_toList, hinsert, Std.ExtTreeSet.mem_toList]

theorem Frame.gas_inherit_le (f child : Frame) : (f.inherit child).gas ≤ f.gas + child.gas := by
  have hgiven : (f.giveGas child.gas).gas ≤ f.gas + child.gas := Nat.min_le_left _ _
  rw [inherit]
  split <;> exact hgiven

namespace Machine

variable {m : Machine} {child : Frame} {how : Resume} {success : Bool}

/-- How a parent executes on with a word on its stack. -/
def continueWith (result : Word) : EStateM ExitFatal Machine Unit := do
  match (← get).frame.stack.push result with
  | .ok stack => modifyFrame fun f => { f with stack, state := .codeExecuting }
  | .error _ => throw (.other "stack overflow resuming frame")

theorem continueWith_ends {result : Word} : Ends (continueWith result) m fun r m' => r = .ok () →
    m'.journal = m.journal ∧ Frame.Quiet { m.frame with state := .codeExecuting } m'.frame := by
  refine Ends.bind_of_ok rfl ?_
  split
  · exact fun _ => ⟨rfl, rfl⟩
  · exact nofun

/-- What a parent takes off the output of its child, and how it executes on. -/
def receive (child : Frame) (success : Bool) (how : Resume) : EStateM ExitFatal Machine Unit := do
  let result ← match how with
    | .call offset length => do
      receiveOutput offset length child.output
      modifyFrame fun f => { f with returnData := child.output }
      pure (Word.ofBool success)
    | .create =>
      if success then pure (Word.ofAddress child.message.contract)
      else do
        modifyFrame fun f => { f with returnData := child.output }
        pure 0
  continueWith result

theorem receive_ends : Ends (receive child success how) m fun r m' => r = .ok () →
    m'.journal = m.journal ∧ Frame.Quiet { m.frame with state := .codeExecuting } m'.frame := by
  have hcontinue {m₁ : Machine} (h₁ : m.Quiet m₁) (result : Word) :
      Ends (continueWith result) m₁ fun r m' => r = .ok () →
        m'.journal = m.journal ∧ Frame.Quiet { m.frame with state := .codeExecuting } m'.frame := by
    refine continueWith_ends.mono fun r m₂ h₂ hr => ?_
    obtain ⟨hjournal, hframe⟩ := h₂ hr
    have hquiet := h₁.frame_quiet.map (fun f => { f with state := .codeExecuting })
      fun _ _ _ _ _ => rfl
    exact ⟨hjournal.trans h₁.journal_eq, hquiet.trans hframe⟩
  cases how with
  | create =>
    rw [receive]
    dsimp only
    split
    · exact hcontinue (.refl m) _
    · refine Ends.bind_of_ok rfl (hcontinue ?_ _)
      exact ⟨rfl, rfl⟩
  | call offset length =>
    refine Ends.bind (Ends.bind_of_ok rfl ?_)
    split
    · refine .ok rfl (Ends.bind_of_ok rfl (hcontinue ?_ _))
      exact ⟨rfl, rfl⟩
    · exact nofun

/-- **A parent goes on** with what its child leaves it. -/
theorem resume_ends : Ends (resume child) m fun r m' => r = .ok () →
    m'.journal = m.journal ∧ (m.frame.resumed child).Quiet m'.frame := by
  refine Ends.bind_of_ok rfl ?_
  cases m.frame.resume with
  | none => exact nofun
  | some how =>
    refine Ends.bind_of_ok rfl (Ends.bind_of_ok rfl ?_)
    rw [Frame.resumed, Frame.inherit]
    by_cases hsuccess : child.state = .completedSuccess
    · rw [if_pos (decide_eq_true hsuccess), if_pos hsuccess]
      exact Ends.bind_of_ok rfl receive_ends
    · rw [if_neg fun h => hsuccess (of_decide_eq_true h), if_neg hsuccess]
      exact receive_ends

end Machine
end Ethereum
