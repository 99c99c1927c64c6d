/-
# Steps

A step executes the instruction at the program counter.  Before the instruction
has any effect its stack bounds are checked and its gas is charged.  A frame runs
by steps until its code stops or waits for a child.
-/

import Ethereum.Interpreter.Execute

namespace Ethereum

namespace Frame

/-- The frame once its code stopped for a reason that is not fatal. -/
def leave (f : Frame) (reason : ExitReason) : Except ExitFatal Frame :=
  match reason with
  | .succeed _ => .ok (f.stopIn .codeSuccess reason)
  | .revert => .ok (f.stopIn .revert reason)
  | .error _ => .ok (f.stopIn .exceptionalHalt reason)
  | .fatal fatal => .error fatal

/-- The frame after an instruction of some size that ended as `control` says. -/
def advance (f : Frame) (size : Nat) : Control → Frame
  | .next => { f with pc := f.pc + size }
  | .jump position =>
    if f.mayJumpTo position then { f with pc := position } else f.halt .invalidJump
  | .suspend => { f with pc := f.pc + size, state := .codeSuspended }

/-- The instruction at the program counter, if its stack bounds are met. -/
def instruction (f : Frame) (instructions : InstructionSet) : Except ExitError Instruction :=
  match instructions.get? f.opcode with
  | none => .error (.invalidCode f.opcode)
  | some i =>
    if !f.stack.holds i.consumed then .error .stackUnderflow
    else if f.stack.room + i.consumed < i.produced then .error .stackOverflow
    else .ok i

end Frame

namespace Instruction

/-- Charges an instruction and does what it does. -/
def perform (i : Instruction) : Exec Control := do
  let m ← get
  let f := m.frame
  Exec.emit (.step f.message.contract f.opcode f.pc f.gas f.stack f.memory.size)
  let cost ← (i.cost (← read) f m.journal : Except ExitReason Nat)
  Exec.charge cost
  Exec.modifyFrame fun f => { f with currentCost := cost }
  i.execute

end Instruction

namespace Run

/-- Executes an instruction and goes on as it says. -/
def perform (i : Instruction) : Run Unit := fun c m =>
  match i.perform c m with
  | .ok control m => .ok () { m with frame := m.frame.advance i.size control }
  | .error reason m =>
    match m.frame.leave reason with
    | .ok f => .ok () { m with frame := f }
    | .error fatal => .error fatal m

/-- Executes the instruction at the program counter.  Past the end of the code
the code stops. -/
def step : Run Unit := do
  let f := (← get).frame
  if f.pc < f.program.size then
    match f.instruction (← read).instructions with
    | .ok i => perform i
    | .error e => fun _ => Machine.modifyFrame (·.halt e)
  else
    fun _ => Machine.modifyFrame (·.stopIn .codeSuccess (.succeed .stopped))

/-- At most `fuel` steps, until the code does not execute any more. -/
def steps : Nat → Run Unit
  | 0 => return ()
  | fuel + 1 => do
    if (← get).frame.state = .codeExecuting then
      step
      steps fuel

/-- Runs the frame until its code does not execute any more.  Every step that
goes on takes gas off the frame, so there are no more steps than gas, and one. -/
def toHalt : Run Unit := do
  steps ((← get).frame.gas + 1)

end Run
end Ethereum
