/-
# Resuming a frame

A suspended frame goes on with the outcome of its child.  It gets back the gas
that the child has left and, if the child succeeded, its logs, deletions and
refunds.  A call leaves one or zero on the stack and a creation the new address
or zero.
-/

import Ethereum.Interpreter.Machine

namespace Ethereum
namespace Machine

/-- Takes over the logs, deletions and refunds of a child. -/
def absorb (child : Frame) : EStateM ExitFatal Machine Unit := do
  modifyFrame (·.absorb child)
  addRefund child.refund

/-- Writes the output of a callee into memory, as far as it was asked for. -/
def receiveOutput (offset length : Nat) (output : Bytes) : EStateM ExitFatal Machine Unit := do
  let part := output.take (min length output.length)
  if (← get).frame.memory.admits offset part.length then
    modifyFrame fun f => { f with memory := f.memory.write offset part }
  else throw .notSupported

/-- Goes on with the outcome of a child. -/
def resume (child : Frame) : EStateM ExitFatal Machine Unit := do
  match (← get).frame.resume with
  | none => throw .unhandledInterrupt
  | some how =>
    modifyFrame fun f => { f with resume := none }
    let success : Bool := child.state = .completedSuccess
    modifyFrame (·.giveGas child.gas)
    if success then absorb child
    let result ← match how with
      | .call offset length => do
        receiveOutput offset length child.output
        modifyFrame fun f => { f with returnData := child.output }
        pure (Word.ofBool success)
      | .create =>
        if success then pure (Word.ofAddress child.message.contract)
        else do
          modifyFrame fun f => { f with returnData := child.output }
          pure 0
    match (← get).frame.stack.push result with
    | .ok stack => modifyFrame fun f => { f with stack, state := .codeExecuting }
    | .error _ => throw (.other "stack overflow resuming frame")

end Machine
end Ethereum
