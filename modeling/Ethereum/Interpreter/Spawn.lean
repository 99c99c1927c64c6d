/-
# Calls and creations

Calls and creations suspend the frame and leave the message for a child.  When
the value is more than the frame's account has, or the frame stands too deep,
nothing is spawned and the instruction gives zero.
-/

import Ethereum.ContractAddress
import Ethereum.Interpreter.Cost

namespace Ethereum

/-- How the code goes on after an instruction. -/
inductive Control where
  /-- With the next instruction. -/
  | next
  /-- At a position, if the code may jump there. -/
  | jump (position : Nat)
  /-- When the child has completed. -/
  | suspend
deriving DecidableEq, Repr

namespace Exec

/-- Whether the account of the frame cannot pay a value, or the frame cannot have
a child. -/
def cannotSpawn (value : Word) : Exec Bool := do
  let f ← frame
  let balance ← reading (·.balance · f.message.recipient)
  return balance < value || (← read).config.callStackLimit ≤ f.message.depth

/-- Creates a contract with init code that lies in memory; with a salt, at an
address that depends on the code. -/
def create (value offset len : Word) (salt : Option Word) : Exec Control := do
  let initCode ← readMemory offset len
  modifyFrame fun f => { f with returnData := [] }
  if ← cannotSpawn value then
    push 0
    return .next
  let f ← frame
  let caller := f.message.recipient
  let nonce ← changing (Journal.incrementNonce · caller)
  let address := match salt with
    | none => (CreateScheme.legacy caller nonce).address
    | some salt => (CreateScheme.create2 caller (keccak initCode) salt).address
  let gas := (← read).config.schedule.childCreate f.gas
  charge gas
  let child : Message := {
    kind := .creation, sender := caller, recipient := address, contract := address,
    originator := f.message.originator, gasPrice := f.message.gasPrice, value,
    apparentValue := value, input := [], code := initCode, gas, depth := f.message.depth + 1,
    isStatic := false }
  modifyFrame (·.suspendWith child .create)
  return .suspend

/-- The message of a call with a scheme by a frame. -/
def callMessage (scheme : CallScheme) (f : Frame) (target : Address) (value : Word)
    (input code : Bytes) (gas : Nat) : Message :=
  let m : Message := { f.message with
    kind := .call, sender := f.message.recipient, recipient := target, contract := target, value,
    apparentValue := value, input, code, gas, depth := f.message.depth + 1 }
  match scheme with
  | .call => m
  | .callCode => { m with recipient := f.message.recipient }
  | .delegateCall =>
    { m with
      sender := f.message.sender, recipient := f.message.recipient,
      apparentValue := f.message.apparentValue }
  | .staticCall => { m with isStatic := true }

/-- Calls an account. -/
def call (scheme : CallScheme) : Exec Control := do
  let f ← frame
  let c ← read
  let available := Quantity.satAdd f.gas f.currentCost
  let split ← scheme.gas c.config.schedule c.store f (← get).journal available
  let _ ← pop
  let target := Word.toAddress (← pop)
  let value ← if scheme.takesValue then pop else pure 0
  let inOffset ← pop
  let inLen ← pop
  let outOffset ← pop
  let outLen ← pop
  growMemory outOffset outLen
  let input ← readMemory inOffset inLen
  let resume ← if outLen = 0 then pure (.call 0 0)
    else pure (.call (← quantity outOffset) (← quantity outLen))
  modifyFrame fun f => { f with returnData := [] }
  let gas := if value = 0 then split.child else Quantity.satAdd split.child Gas.callStipend
  if ← cannotSpawn value then
    modifyFrame (·.giveGas gas)
    push 0
    return .next
  let code ← reading (·.code · target)
  modifyFrame fun f => f.suspendWith (callMessage scheme f target value input code gas) resume
  return .suspend

end Exec
end Ethereum
