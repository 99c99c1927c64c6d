/-
# Effects of instructions

What an instruction does once it is paid for.  Operands are taken off the stack
in the order in which they lie there, the top first.
-/

import Ethereum.Interpreter.Spawn
import Ethereum.Word.Arithmetic

namespace Ethereum

namespace UnaryOp

/-- The word that an operation gives. -/
def apply : UnaryOp → Word → Word
  | iszero, a => Word.iszero a
  | not, a => ~~~a

end UnaryOp

namespace BinaryOp

/-- The word that an operation gives; the first operand lies on top. -/
def apply : BinaryOp → Word → Word → Word
  | add, a, b => a + b
  | mul, a, b => a * b
  | sub, a, b => a - b
  | div, a, b => Word.div a b
  | sdiv, a, b => Word.sdiv a b
  | mod, a, b => Word.rem a b
  | smod, a, b => Word.srem a b
  | exp, a, b => Word.exp a b
  | signextend, a, b => Word.signextend a b
  | lt, a, b => Word.ofBool (a < b)
  | gt, a, b => Word.ofBool (b < a)
  | slt, a, b => Word.slt a b
  | sgt, a, b => Word.sgt a b
  | eq, a, b => Word.ofBool (a = b)
  | and, a, b => a &&& b
  | or, a, b => a ||| b
  | xor, a, b => a ^^^ b
  | byte, a, b => Word.byte a b
  | shl, a, b => Word.shl a b
  | shr, a, b => Word.shr a b
  | sar, a, b => Word.sar a b

end BinaryOp

namespace TernaryOp

/-- The word that an operation gives; the first operand lies on top. -/
def apply : TernaryOp → Word → Word → Word → Word
  | addmod, a, b, n => Word.addmod a b n
  | mulmod, a, b, n => Word.mulmod a b n

end TernaryOp

/-- A length as a word. -/
def Word.ofLength (n : Nat) : Word := BitVec.ofNat 256 n

namespace Frame

/-- A word that the frame knows. -/
def field (f : Frame) : FrameField → Word
  | .address => Word.ofAddress f.message.recipient
  | .origin => Word.ofAddress f.message.originator
  | .caller => Word.ofAddress f.message.sender
  | .callvalue => f.message.apparentValue
  | .calldatasize => Word.ofLength f.message.input.length
  | .codesize => Word.ofLength f.program.size
  | .gasprice => f.message.gasPrice
  | .returndatasize => Word.ofLength f.returnData.length
  | .coinbase => Word.ofAddress f.block.coinbase
  | .timestamp => f.block.timestamp
  | .number => f.block.number
  | .difficulty => f.block.difficulty
  | .gaslimit => f.block.gasLimit
  | .pc => Word.ofLength f.pc
  | .msize => f.memory.size
  | .gas => Word.ofLength f.gas

/-- Data of the frame that can be copied into memory. -/
def source (f : Frame) : DataSource → Bytes
  | .calldata => f.message.input
  | .code => f.message.code
  | .returndata => f.returnData

end Frame

namespace Exec

/-- A word that is read off an account.  A missing or empty account has no code
hash. -/
def accountField (address : Address) : AccountField → Exec Word
  | .balance => reading (·.balance · address)
  | .extcodesize => return Word.ofLength (← reading (·.code · address)).length
  | .extcodehash => do
    let found ← reading (·.exists? · address)
    if !found then return 0
    if ← reading (·.isEmpty · address) then return 0
    reading (·.codeHash · address)

/-- Copies data of the frame into memory.  Return data has to reach as far as the
copy; other data goes on with zeros. -/
def copyData (source : DataSource) : Exec Unit := do
  let offset ← pop
  let dataOffset ← pop
  let len ← pop
  let data := (← frame).source source
  if source = .returndata ∧ data.length < dataOffset.toNat + len.toNat then
    throw (.error .outOfOffset)
  growMemory offset len
  copyToMemory offset dataOffset len data

/-- Copies the code of an account into memory. -/
def copyExternalCode : Exec Unit := do
  let address ← pop
  let offset ← pop
  let codeOffset ← pop
  let len ← pop
  growMemory offset len
  let code ← reading (·.code · (Word.toAddress address))
  copyToMemory offset codeOffset len code

/-- Writes a word into memory, or its lowest bytes. -/
def storeWord (width : Nat) : Exec Unit := do
  let offset ← pop
  let value ← pop
  growMemory offset (BitVec.ofNat 256 width)
  writeMemory (← quantity offset) (Bytes.ofNatFixed width value.toNat) width

/-- Reads a word from memory. -/
def loadWord : Exec Unit := do
  let offset ← pop
  growMemory offset 32
  let start ← quantity offset
  push (Word.ofBytes ((← frame).memory.get start 32))

/-- Reads a slot. -/
def loadSlot : Exec Unit := do
  let key ← pop
  let address := (← frame).message.recipient
  let value ← reading (·.slot · address key)
  emit (.sload address key value)
  push value

/-- Writes a slot. -/
def storeSlot : Exec Unit := do
  let key ← pop
  let value ← pop
  let address := (← frame).message.recipient
  let current ← reading (·.slot · address key)
  fun _ => Machine.addRefund (Gas.sstoreRefund current value)
  emit (.sstore address key value)
  changing (Journal.setSlot · address key value)

/-- Leaves a log. -/
def leaveLog (topics : Nat) : Exec Unit := do
  let offset ← pop
  let len ← pop
  let topics ← popMany topics
  let data ← readMemory offset len
  modifyFrame fun f => f.addLog ⟨f.message.recipient, topics, data⟩

/-- Takes the output of the code from memory. -/
def takeOutput : Exec Unit := do
  let offset ← pop
  let len ← pop
  let output ← readMemory offset len
  modifyFrame fun f => { f with output }

/-- Gives the whole balance of the own account to a beneficiary and marks the
account for deletion. -/
def selfdestruct : Exec Unit := do
  let beneficiary := Word.toAddress (← pop)
  let address := (← frame).message.recipient
  let balance ← reading (·.balance · address)
  changing (Journal.getOrCreate · beneficiary)
  let _ ← changing (Journal.incrementBalance · beneficiary balance)
  let _ ← changing (Journal.decrementBalance · address balance)
  modifyFrame (·.addSelfDestruct address)

/-- A jump to the position that a word means. -/
def jumpTo (w : Word) : Exec Control :=
  match w.toQuantity? with
  | some position => return .jump position
  | none => throw (.error .invalidJump)

/-- An operation on the stack alone. -/
def onStack (change : Stack → Except ExitError Stack) : Exec Unit := do
  let stack ← change (← frame).stack
  modifyFrame fun f => { f with stack }

end Exec

namespace Instruction

/-- Does what an instruction does. -/
def execute (i : Instruction) : Exec Control := do
  match i with
  | stop => throw (.succeed .stopped)
  | unary op => Exec.push (op.apply (← Exec.pop))
  | binary op =>
    let a ← Exec.pop
    let b ← Exec.pop
    Exec.push (op.apply a b)
  | ternary op =>
    let a ← Exec.pop
    let b ← Exec.pop
    let c ← Exec.pop
    Exec.push (op.apply a b c)
  | sha3 =>
    let offset ← Exec.pop
    let len ← Exec.pop
    Exec.push (keccak (← Exec.readMemory offset len))
  | field which => Exec.push ((← Exec.frame).field which)
  | account which => Exec.push (← Exec.accountField (Word.toAddress (← Exec.pop)) which)
  | calldataload =>
    let index ← Exec.pop
    Exec.push (Word.ofBytes ((← Exec.frame).message.input.window index.toNat 32))
  | copy source => Exec.copyData source
  | extcodecopy => Exec.copyExternalCode
  | blockhash =>
    let number ← Exec.pop
    Exec.push ((← Exec.frame).block.hashOf number)
  | pop => let _ ← Exec.pop
  | mload => Exec.loadWord
  | mstore => Exec.storeWord 32
  | mstore8 => Exec.storeWord 1
  | sload => Exec.loadSlot
  | sstore => Exec.storeSlot
  | jump => return ← Exec.jumpTo (← Exec.pop)
  | jumpi =>
    let target ← Exec.pop
    let condition ← Exec.pop
    if condition ≠ 0 then return ← Exec.jumpTo target
  | jumpdest => pure ()
  | push n =>
    let f ← Exec.frame
    Exec.push (f.program.wordAt (f.pc + 1) (n + 1))
  | dup n => Exec.onStack (·.dup n)
  | swap n => Exec.onStack (·.swap (n + 1))
  | log topics => Exec.leaveLog topics
  | create =>
    let value ← Exec.pop
    let offset ← Exec.pop
    let len ← Exec.pop
    return ← Exec.create value offset len none
  | create2 =>
    let value ← Exec.pop
    let offset ← Exec.pop
    let len ← Exec.pop
    let salt ← Exec.pop
    return ← Exec.create value offset len (some salt)
  | call scheme => return ← Exec.call scheme
  | ret =>
    Exec.takeOutput
    throw (.succeed .returned)
  | revert =>
    Exec.takeOutput
    throw .revert
  | invalid => throw (.error .designatedInvalid)
  | selfdestruct =>
    Exec.selfdestruct
    throw (.succeed .selfDestructed)
  return .next

end Instruction
end Ethereum
