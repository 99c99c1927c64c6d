/-
# Prices of instructions

The price of an instruction is known before it has any effect.  It depends on the
operands, on the memory of the frame and, for instructions that touch accounts,
on the state.  Instructions that change the state have no price in a static
frame.
-/

import Ethereum.Interpreter.Machine

namespace Ethereum
namespace Frame

/-- The price of growing the memory to cover `len` bytes at `offset`. -/
def memoryCost (f : Frame) (offset len : Word) : Gas.Price := do
  Gas.memoryExpansion f.memory.activeWords (← f.memory.wordsAfterAccess offset len)

/-- The price of growing the memory to cover two regions. -/
def memoryCost₂ (f : Frame) (offset₁ len₁ offset₂ len₂ : Word) : Gas.Price := do
  let w₁ ← f.memory.wordsAfterAccess offset₁ len₁
  let w₂ ← f.memory.wordsAfterAccess offset₂ len₂
  Gas.memoryExpansion f.memory.activeWords (if w₁ ≤ w₂ then w₂ else w₁)

/-- `base` and the price of growing the memory. -/
def withMemory (f : Frame) (base : Nat) (offset len : Word) : Gas.Price := do
  Gas.add base (← f.memoryCost offset len)

/-- The operand at a position from the top. -/
def operand (f : Frame) (i : Nat) : Except ExitError Word := f.stack.peek i

/-- Fails in a static frame. -/
def checkNotStatic (f : Frame) : Except ExitError Unit :=
  if f.message.isStatic then .error .staticModeViolation else .ok ()

end Frame

/-- What a call pays for itself and what it gives to its callee, apart from the
stipend. -/
structure CallGas where
  own : Nat
  child : Nat
deriving DecidableEq, Repr

namespace CallScheme

/-- The position of the offset of the input among the operands of a call. -/
def inputPosition (s : CallScheme) : Nat := if s.takesValue then 3 else 2

/-- The value operand of a call; zero if it takes none. -/
def valueOperand (s : CallScheme) (f : Frame) : Except ExitError Word :=
  if s.takesValue then f.operand 2 else .ok 0

/-- The gas of a call by a frame that has `available` gas before the call. -/
def gas (s : CallScheme) (schedule : Gas.Schedule) (store : Store) (f : Frame) (j : Journal)
    (available : Nat) : Except ExitReason CallGas := do
  let requested ← f.operand 0
  let target := Word.toAddress (← f.operand 1)
  let value ← s.valueOperand f
  let i := s.inputPosition
  let memory ← f.memoryCost₂ (← f.operand i) (← f.operand (i + 1)) (← f.operand (i + 2))
    (← f.operand (i + 3))
  let transfersValue := value ≠ 0
  let own ← Gas.add schedule.callBase memory
  let own ← Gas.add own (Gas.valueTransfer transfersValue)
  let own ← if s = .call then do
      let found ← j.exists? store target
      let isEmpty ← j.isEmpty store target
      if schedule.chargesNewAccount transfersValue found isEmpty then Gas.add own Gas.newAccount
      else pure own
    else pure own
  return ⟨own, ← schedule.childCall (available - own) requested⟩

/-- The price of a call. -/
def cost (s : CallScheme) (schedule : Gas.Schedule) (store : Store) (f : Frame) (j : Journal) :
    Except ExitReason Nat := do
  if s = .call ∧ f.message.isStatic then
    if (← f.operand 2) ≠ 0 then throw (.error .staticModeViolation)
  let gas ← s.gas schedule store f j f.gas
  Gas.add gas.own gas.child

end CallScheme

namespace Instruction

/-- The price of creating a contract, with `base` for the creation itself. -/
def createCost (base : Nat) (f : Frame) : Gas.Price := do
  f.checkNotStatic
  f.withMemory base (← f.operand 1) (← f.operand 2)

/-- The price of deleting the own account. -/
def selfdestructCost (schedule : Gas.Schedule) (store : Store) (f : Frame) (j : Journal) :
    Except ExitReason Nat := do
  f.checkNotStatic
  let beneficiary := Word.toAddress (← f.operand 0)
  let balance ← j.balance store f.message.recipient
  let found ← j.exists? store beneficiary
  let isEmpty ← j.isEmpty store beneficiary
  return schedule.selfdestruct (schedule.selfdestructChargesNewAccount (balance ≠ 0) found isEmpty)

/-- The price of writing a slot, which depends on the value it has. -/
def sstoreCost (store : Store) (f : Frame) (j : Journal) : Except ExitReason Nat := do
  f.checkNotStatic
  let key ← f.operand 0
  let new ← f.operand 1
  return Gas.sstore (← j.slot store f.message.recipient key) new

/-- The price of a log. -/
def logCost (topics : Nat) (f : Frame) : Gas.Price := do
  f.checkNotStatic
  let len ← f.operand 1
  f.withMemory (← Gas.log topics len) (← f.operand 0) len

/-- The price of an operation on two words. -/
def binaryCost (schedule : Gas.Schedule) (f : Frame) : BinaryOp → Gas.Price
  | .exp => return schedule.exp (← f.operand 1)
  | .mul | .div | .sdiv | .mod | .smod | .signextend => return Gas.lowTier
  | _ => return Gas.veryLowTier

/-- The price of an instruction to a frame. -/
def cost (i : Instruction) (c : Context) (f : Frame) (j : Journal) : Except ExitReason Nat :=
  let schedule := c.config.schedule
  match i with
  | stop | invalid => return Gas.zeroTier
  | unary _ => return Gas.veryLowTier
  | binary op => binaryCost schedule f op
  | ternary _ => return Gas.midTier
  | sha3 => do
    let len ← f.operand 1
    f.withMemory (← Gas.sha3 len) (← f.operand 0) len
  | field _ => return Gas.baseTier
  | account .balance => return schedule.balance
  | account .extcodesize => return schedule.extCode
  | account .extcodehash => return Gas.extCodeHash
  | calldataload => return Gas.veryLowTier
  | copy _ => do
    let len ← f.operand 2
    f.withMemory (← Gas.copy Gas.veryLowTier len) (← f.operand 0) len
  | extcodecopy => do
    let len ← f.operand 3
    f.withMemory (← schedule.extCodeCopy len) (← f.operand 1) len
  | blockhash => return Gas.blockHash
  | pop => return Gas.baseTier
  | mload | mstore => do f.withMemory Gas.veryLowTier (← f.operand 0) 32
  | mstore8 => do f.withMemory Gas.veryLowTier (← f.operand 0) 1
  | sload => return schedule.sload
  | sstore => sstoreCost c.store f j
  | jump => return Gas.midTier
  | jumpi => return Gas.highTier
  | jumpdest => return Gas.jumpDest
  | push _ | dup _ | swap _ => return Gas.veryLowTier
  | log topics => logCost topics f
  | create => createCost Gas.create f
  | create2 => do createCost (← Gas.create2 (← f.operand 2)) f
  | call scheme => scheme.cost schedule c.store f j
  | ret | revert => do f.withMemory Gas.zeroTier (← f.operand 0) (← f.operand 1)
  | selfdestruct => selfdestructCost schedule c.store f j

end Instruction
end Ethereum
