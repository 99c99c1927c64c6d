/-
# Quiet programs

Most of what instructions do concerns only the stack, the memory, the output and the
return data of the frame (`Machine.Quiet`).  A program made of such parts leaves the
machine quiet, whether it returns or throws (`Exec.Quietly`), and so do all
instructions but those that write a slot, leave a log, spawn a child or delete the
account (`Instruction.quietly_execute`).
-/

import Mathlib
import Ethereum.Interpreter.Execute
import Ethereum.Proofs.Programs

namespace Ethereum

/-- The frames differ in nothing but their stack, memory, output and return data. -/
def Frame.Quiet (f f' : Frame) : Prop :=
  f' = { f with
    stack := f'.stack, memory := f'.memory, output := f'.output, returnData := f'.returnData }

theorem Frame.Quiet.refl (f : Frame) : f.Quiet f := rfl

theorem Frame.Quiet.trans {f f' f'' : Frame} (h : f.Quiet f') (h' : f'.Quiet f'') : f.Quiet f'' := by
  rw [Frame.Quiet] at *
  rw [h', h]

/-- A change that neither looks at the stack, the memory, the output and the return data nor
touches them keeps frames quiet. -/
theorem Frame.Quiet.map {f f' : Frame} (h : f.Quiet f') (change : Frame → Frame)
    (hchange : ∀ (f : Frame) stack memory output returnData,
      change { f with stack, memory, output, returnData } =
        { change f with stack, memory, output, returnData }) : (change f).Quiet (change f') := by
  have heq := hchange f f'.stack f'.memory f'.output f'.returnData
  rw [← h] at heq
  rw [heq]
  rfl

theorem Frame.Quiet.message_eq {f f' : Frame} (h : f.Quiet f') : f'.message = f.message := by
  rw [Frame.Quiet] at h
  rw [h]

theorem Frame.Quiet.gas_eq {f f' : Frame} (h : f.Quiet f') : f'.gas = f.gas := by
  rw [Frame.Quiet] at h
  rw [h]

theorem Frame.Quiet.child_eq {f f' : Frame} (h : f.Quiet f') : f'.child = f.child := by
  rw [Frame.Quiet] at h
  rw [h]

/-- The frames run the same message from the same position of its program. -/
def Frame.Kept (f f' : Frame) : Prop :=
  f' = { f' with
    message := f.message, block := f.block, program := f.program, state := f.state, pc := f.pc,
    exit := f.exit }

theorem Frame.Kept.trans {f f' f'' : Frame} (h : f.Kept f') (h' : f'.Kept f'') : f.Kept f'' := by
  rw [Frame.Kept] at *
  rw [h', h]

theorem Frame.Kept.message_eq {f f' : Frame} (h : f.Kept f') : f'.message = f.message := by
  rw [h]

theorem Frame.Kept.state_eq {f f' : Frame} (h : f.Kept f') : f'.state = f.state := by
  rw [h]

theorem Frame.Quiet.kept {f f' : Frame} (h : f.Quiet f') : f.Kept f' := by
  rw [Frame.Quiet] at h
  rw [Frame.Kept, h]

/-- The machines differ in nothing but what quiet frames differ in, and in their traces. -/
structure Machine.Quiet (m m' : Machine) : Prop where
  journal_eq : m'.journal = m.journal
  frame_quiet : m.frame.Quiet m'.frame

namespace Machine.Quiet

variable {m m' m'' : Machine}

theorem refl (m : Machine) : m.Quiet m := ⟨rfl, .refl _⟩

theorem trans (h : m.Quiet m') (h' : m'.Quiet m'') : m.Quiet m'' where
  journal_eq := h'.journal_eq.trans h.journal_eq
  frame_quiet := h.frame_quiet.trans h'.frame_quiet

end Machine.Quiet

namespace Exec

variable {α β : Type}

/-- The program leaves the machine quiet, however it ends, and what it returns has the
property `P`. -/
def QuietlyTo (P : α → Prop) (p : Exec α) : Prop :=
  ∀ c m, Ends (p c) m fun r m' => m.Quiet m' ∧ ∀ a, r = .ok a → P a

/-- The program leaves the machine quiet, however it ends. -/
abbrev Quietly (p : Exec α) : Prop := QuietlyTo (fun _ => True) p

/-- **Going on after a quiet program.** -/
theorem Quietly.bind_ends {p : Exec α} {f : α → Exec β} {c : Context} {m : Machine}
    {Q : Except ExitReason β → Machine → Prop} (hp : Quietly p)
    (herror : ∀ e m₁, m.Quiet m₁ → Q (.error e) m₁)
    (hok : ∀ a m₁, m.Quiet m₁ → Ends (f a c) m₁ Q) : Ends ((p >>= f) c) m Q := by
  refine Ends.bind ((hp c m).mono fun r m₁ h₁ => ?_)
  cases r with
  | ok a => exact hok a m₁ h₁.1
  | error e => exact herror e m₁ h₁.1

theorem Quietly.bind {p : Exec α} {f : α → Exec β} {P : β → Prop} (hp : Quietly p)
    (hf : ∀ a, QuietlyTo P (f a)) : QuietlyTo P (p >>= f) := by
  intro c m
  refine hp.bind_ends (fun e m₁ h₁ => ⟨h₁, nofun⟩) fun a m₁ h₁ => ?_
  exact (hf a c m₁).mono fun _ _ h₂ => ⟨h₁.trans h₂.1, h₂.2⟩

theorem quietlyTo_pure {P : α → Prop} {a : α} (h : P a) : QuietlyTo P (pure a) :=
  fun _ m => ⟨.refl m, fun _ hb => Except.ok.inj hb ▸ h⟩

theorem quietly_pure (a : α) : Quietly (pure a) := quietlyTo_pure trivial

theorem quietly_throw {P : α → Prop} (e : ExitReason) : QuietlyTo P (throw e) :=
  fun _ m => ⟨.refl m, nofun⟩

theorem quietly_frame : Quietly frame := fun _ m => ⟨.refl m, fun _ _ => trivial⟩

theorem quietly_liftError (x : Except ExitError α) : Quietly (liftM x : Exec α) := by
  intro c m
  cases x <;> exact ⟨.refl m, fun _ _ => trivial⟩

theorem quietly_reading (read : Journal → Store → Except StateError α) :
    Quietly (reading read) := by
  intro c m
  rw [Ends, reading]
  cases read m.journal c.store <;> exact ⟨.refl m, fun _ _ => trivial⟩

theorem quietly_emit (e : Event) : Quietly (emit e) :=
  fun _ _ => ⟨⟨rfl, rfl⟩, fun _ _ => trivial⟩

theorem quietly_modifyFrame {change : Frame → Frame} (h : ∀ f : Frame, f.Quiet (change f)) :
    Quietly (modifyFrame change) :=
  fun _ m => ⟨⟨rfl, h m.frame⟩, fun _ _ => trivial⟩

/-! ## Parts of instructions -/

theorem quietly_pop : Quietly pop := by
  refine quietly_frame.bind fun _ => (quietly_liftError _).bind fun x => ?_
  have hstack (f : Frame) : f.Quiet { f with stack := x.2 } := rfl
  exact (quietly_modifyFrame hstack).bind fun _ => quietly_pure _

theorem quietly_push (w : Word) : Quietly (push w) :=
  quietly_frame.bind fun _ => (quietly_liftError _).bind fun _ => quietly_modifyFrame fun _ => rfl

theorem quietly_popMany (n : Nat) : Quietly (popMany n) := by
  induction n with
  | zero => exact quietly_pure _
  | succ n ih => exact quietly_pop.bind fun _ => ih.bind fun _ => quietly_pure _

theorem quietly_growMemory (offset len : Word) : Quietly (growMemory offset len) :=
  quietly_frame.bind fun _ => (quietly_liftError _).bind fun _ => quietly_modifyFrame fun _ => rfl

theorem quietly_quantity (w : Word) : Quietly (quantity w) := by
  rw [quantity]
  split
  · exact quietly_pure _
  · exact quietly_throw _

theorem quietly_writeMemory (offset : Nat) (bytes : Bytes) (len : Nat) :
    Quietly (writeMemory offset bytes len) := by
  refine quietly_frame.bind fun f => ?_
  split
  · exact quietly_modifyFrame fun _ => rfl
  · exact quietly_throw _

theorem quietly_copyToMemory (offset dataOffset len : Word) (data : Bytes) :
    Quietly (copyToMemory offset dataOffset len data) := by
  rw [copyToMemory]
  split
  · exact quietly_pure _
  · exact (quietly_quantity _).bind fun _ => (quietly_quantity _).bind fun _ =>
      quietly_writeMemory _ _ _

theorem quietly_readMemory (offset len : Word) : Quietly (readMemory offset len) := by
  refine (quietly_growMemory _ _).bind fun _ => ?_
  split
  · exact quietly_pure _
  · exact (quietly_quantity _).bind fun _ => (quietly_quantity _).bind fun _ =>
      quietly_frame.bind fun _ => quietly_pure _

theorem quietly_accountField (address : Address) (which : AccountField) :
    Quietly (accountField address which) := by
  cases which with
  | balance =>
    rw [accountField]
    exact quietly_reading _
  | extcodesize => exact (quietly_reading _).bind fun _ => quietly_pure _
  | extcodehash =>
    refine (quietly_reading _).bind fun found => ?_
    split
    · exact quietly_pure _
    · refine (quietly_reading _).bind fun isEmpty => ?_
      split
      · exact quietly_pure _
      · exact quietly_reading _

theorem quietly_copyData (source : DataSource) : Quietly (copyData source) := by
  refine quietly_pop.bind fun _ => quietly_pop.bind fun _ => quietly_pop.bind fun _ =>
    quietly_frame.bind fun _ => ?_
  have hcopy (offset dataOffset len : Word) (data : Bytes) : Quietly (do
      growMemory offset len
      copyToMemory offset dataOffset len data) :=
    (quietly_growMemory _ _).bind fun _ => quietly_copyToMemory _ _ _ _
  dsimp only
  split
  · exact Quietly.bind (quietly_throw _) fun _ => hcopy _ _ _ _
  · exact hcopy _ _ _ _

theorem quietly_copyExternalCode : Quietly copyExternalCode :=
  quietly_pop.bind fun _ => quietly_pop.bind fun _ => quietly_pop.bind fun _ =>
    quietly_pop.bind fun _ => (quietly_growMemory _ _).bind fun _ => (quietly_reading _).bind fun _ =>
      quietly_copyToMemory _ _ _ _

theorem quietly_storeWord (width : Nat) : Quietly (storeWord width) :=
  quietly_pop.bind fun _ => quietly_pop.bind fun _ => (quietly_growMemory _ _).bind fun _ =>
    (quietly_quantity _).bind fun _ => quietly_writeMemory _ _ _

theorem quietly_loadWord : Quietly loadWord :=
  quietly_pop.bind fun _ => (quietly_growMemory _ _).bind fun _ => (quietly_quantity _).bind fun _ =>
    quietly_frame.bind fun _ => quietly_push _

theorem quietly_loadSlot : Quietly loadSlot :=
  quietly_pop.bind fun _ => quietly_frame.bind fun _ => (quietly_reading _).bind fun _ =>
    (quietly_emit _).bind fun _ => quietly_push _

theorem quietly_takeOutput : Quietly takeOutput :=
  quietly_pop.bind fun _ => quietly_pop.bind fun _ => (quietly_readMemory _ _).bind fun _ =>
    quietly_modifyFrame fun _ => rfl

theorem quietly_onStack (change : Stack → Except ExitError Stack) : Quietly (onStack change) :=
  quietly_frame.bind fun _ => (quietly_liftError _).bind fun _ => quietly_modifyFrame fun _ => rfl

theorem quietlyTo_jumpTo {P : Prop} (w : Word) (h : P) :
    QuietlyTo (fun control => control ≠ .suspend ∧ P) (jumpTo w) := by
  rw [jumpTo]
  split
  · exact quietlyTo_pure ⟨nofun, h⟩
  · exact quietly_throw _

end Exec

namespace Instruction

/-- Whether an instruction changes at most the stack, the memory, the output and the return
data of its frame. -/
def isQuiet : Instruction → Bool
  | sstore | log _ | create | create2 | call _ | selfdestruct => false
  | _ => true

/-- Whether no code goes on after an instruction. -/
def endsCode : Instruction → Bool
  | stop | invalid | ret | revert | selfdestruct => true
  | _ => false

open Exec in
/-- **Most instructions are quiet**.  None of these suspends its frame, and after some the
code does not go on. -/
theorem quietly_execute {i : Instruction} (h : i.isQuiet) :
    QuietlyTo (fun control => control ≠ .suspend ∧ i.endsCode = false) i.execute := by
  have next {i : Instruction} {p : Exec Unit} (hp : Quietly p) (hi : i.endsCode = false) :
      QuietlyTo (fun control => control ≠ .suspend ∧ i.endsCode = false)
        (p >>= fun _ => pure Control.next) :=
    hp.bind fun _ => quietlyTo_pure ⟨nofun, hi⟩
  -- a quiet instruction ends in the one that follows it, in a jump, or with the code
  cases i with
  | sstore | log | create | create2 | call | selfdestruct => cases h
  | stop => exact quietly_throw _
  | invalid => exact quietly_throw _
  | unary op => exact quietly_pop.bind fun _ => next (quietly_push _) rfl
  | binary op =>
    exact quietly_pop.bind fun _ => quietly_pop.bind fun _ => next (quietly_push _) rfl
  | ternary op =>
    exact quietly_pop.bind fun _ => quietly_pop.bind fun _ => quietly_pop.bind fun _ =>
      next (quietly_push _) rfl
  | sha3 =>
    exact quietly_pop.bind fun _ => quietly_pop.bind fun _ => (quietly_readMemory _ _).bind fun _ =>
      next (quietly_push _) rfl
  | field which => exact quietly_frame.bind fun _ => next (quietly_push _) rfl
  | account which =>
    exact quietly_pop.bind fun _ => (quietly_accountField _ _).bind fun _ =>
      next (quietly_push _) rfl
  | calldataload =>
    exact quietly_pop.bind fun _ => quietly_frame.bind fun _ => next (quietly_push _) rfl
  | copy source => exact next (quietly_copyData _) rfl
  | extcodecopy => exact next quietly_copyExternalCode rfl
  | blockhash =>
    exact quietly_pop.bind fun _ => quietly_frame.bind fun _ => next (quietly_push _) rfl
  | pop => exact quietly_pop.bind fun _ => quietlyTo_pure ⟨nofun, rfl⟩
  | mload => exact next quietly_loadWord rfl
  | mstore => exact next (quietly_storeWord _) rfl
  | mstore8 => exact next (quietly_storeWord _) rfl
  | sload => exact next quietly_loadSlot rfl
  | jump => exact quietly_pop.bind fun _ => quietlyTo_jumpTo _ rfl
  | jumpi =>
    refine quietly_pop.bind fun _ => quietly_pop.bind fun _ => ?_
    dsimp only
    split
    · exact quietlyTo_jumpTo _ rfl
    · exact quietlyTo_pure ⟨nofun, rfl⟩
  | jumpdest => exact quietlyTo_pure ⟨nofun, rfl⟩
  | push n => exact quietly_frame.bind fun _ => next (quietly_push _) rfl
  | dup n => exact next (quietly_onStack _) rfl
  | swap n => exact next (quietly_onStack _) rfl
  | ret => exact quietly_takeOutput.bind fun _ => quietly_throw _
  | revert => exact quietly_takeOutput.bind fun _ => quietly_throw _

end Instruction
end Ethereum
