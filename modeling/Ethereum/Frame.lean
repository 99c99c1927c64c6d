/-
# Frames

A message asks for a call or for the creation of a contract, and a frame is the
execution of one message.  A frame runs through these states:

| state              | next                                                     |
|--------------------|----------------------------------------------------------|
| `notStarted`       | `codeExecuting`, or it completes or halts at once        |
| `codeExecuting`    | `codeSuspended`, `codeSuccess`, `revert`, `exceptionalHalt` |
| `codeSuspended`    | `codeExecuting`, when the child that it waits for is done |
| `codeSuccess`      | `completedSuccess`, `exceptionalHalt`                    |
| `revert`           | `completedFailed`                                        |
| `exceptionalHalt`  | `completedFailed`                                        |
-/

import Ethereum.Block
import Ethereum.Config
import Ethereum.Memory
import Ethereum.Program
import Ethereum.Stack
import Std.Data.ExtTreeSet

namespace Ethereum

/-- What a message asks for. -/
inductive MessageKind where
  /-- To run the code of an account. -/
  | call
  /-- To run init code and keep what it returns as the code of an account. -/
  | creation
deriving DecidableEq, Repr

/-- A request to run code. -/
structure Message where
  kind : MessageKind
  sender : Address
  /-- The account that the code acts on. -/
  recipient : Address
  /-- The account whose code it is. -/
  contract : Address
  originator : Address
  gasPrice : Word
  /-- What moves from the sender to the recipient. -/
  value : Word
  /-- What the code sees as value. -/
  apparentValue : Word
  input : Bytes
  code : Bytes
  gas : Nat
  depth : Nat
  isStatic : Bool
deriving DecidableEq, Repr

/-- Where a frame stands. -/
inductive FrameState where
  | notStarted
  | codeExecuting
  | codeSuspended
  | codeSuccess
  | completedSuccess
  | completedFailed
  | exceptionalHalt
  | revert
deriving DecidableEq, Repr

/-- The name of a state. -/
def FrameState.name : FrameState → String
  | notStarted => "NotStarted"
  | codeExecuting => "CodeExecuting"
  | codeSuspended => "CodeSuspended"
  | codeSuccess => "CodeSuccess"
  | completedSuccess => "CompletedSuccess"
  | completedFailed => "CompletedFailed"
  | exceptionalHalt => "ExceptionalHalt"
  | revert => "Revert"

/-- A record that code leaves for readers of the block. -/
structure Log where
  address : Address
  topics : List Hash
  data : Bytes
deriving DecidableEq, Repr

/-- What a frame does with the outcome of its child. -/
inductive Resume where
  /-- Takes up to `length` bytes of the output into memory at `offset`. -/
  | call (offset length : Nat)
  | create
deriving DecidableEq, Repr

/-- The execution of a message. -/
structure Frame where
  message : Message
  block : Block
  program : Program
  state : FrameState
  pc : Nat
  stack : Stack
  memory : Memory
  /-- The gas left. -/
  gas : Nat
  /-- The refund counter. -/
  refund : Int
  output : Bytes
  /-- The output of the last child. -/
  returnData : Bytes
  logs : Array Log
  selfDestructs : Std.ExtTreeSet Address
  /-- Why the code stopped. -/
  exit : Option ExitReason
  /-- The price of the current instruction. -/
  currentCost : Nat
  /-- The message of the child to run. -/
  child : Option Message
  resume : Option Resume

namespace Frame

/-- The frame of a message, not started yet, with limits for its stack and its
memory. -/
def ofMessage (m : Message) (block : Block) (stackLimit memoryLimit : Nat) : Frame where
  message := m
  block
  program := .ofCode m.code
  state := .notStarted
  pc := 0
  stack := .empty stackLimit
  memory := .empty memoryLimit
  gas := m.gas
  refund := 0
  output := []
  returnData := []
  logs := #[]
  selfDestructs := ∅
  exit := none
  currentCost := 0
  child := none
  resume := none

/-- The frame of a message under a configuration. -/
def new (c : Config) (block : Block) (m : Message) : Frame :=
  ofMessage m block c.stackLimit c.memoryLimit

/-- The opcode at the program counter; zero past the end of the code. -/
def opcode (f : Frame) : UInt8 := f.program.byteAt f.pc

/-- Whether the code may jump to a position. -/
def mayJumpTo (f : Frame) (position : Nat) : Bool := f.program.jumps.isValid position

/-- The frame that ends for a reason, in a state. -/
def stopIn (f : Frame) (state : FrameState) (reason : ExitReason) : Frame :=
  { f with state, exit := some reason }

/-- The frame halted by an error. -/
def halt (f : Frame) (error : ExitError) : Frame :=
  f.stopIn .exceptionalHalt (.error error)

/-- The frame with gas taken off, if there is enough. -/
def charge (f : Frame) (cost : Nat) : Except ExitError Frame := do
  let gas ← Gas.pay f.gas cost
  return { f with gas }

/-- The frame with gas given back. -/
def giveGas (f : Frame) (amount : Nat) : Frame := { f with gas := Quantity.satAdd f.gas amount }

/-- The frame without gas. -/
def clearGas (f : Frame) : Frame := { f with gas := 0 }

/-- The frame with an amount added to its refund counter. -/
def addRefund (f : Frame) (amount : Int) : Frame :=
  { f with refund := Gas.countRefund f.refund amount }

/-- The frame with one more log. -/
def addLog (f : Frame) (log : Log) : Frame := { f with logs := f.logs.push log }

/-- The frame with one more account to delete. -/
def addSelfDestruct (f : Frame) (address : Address) : Frame :=
  { f with selfDestructs := f.selfDestructs.insert address }

/-- The frame that waits for a child. -/
def suspendWith (f : Frame) (child : Message) (resume : Resume) : Frame :=
  { f with child := some child, resume := some resume }

/-- The frame of the child to run, if there is one, and the frame without it. -/
def takeChild (f : Frame) : Option Frame × Frame :=
  (f.child.map fun m => ofMessage m f.block f.stack.limit f.memory.limit, { f with child := none })

/-- The frame with the logs and the deletions of a child that succeeded. -/
def absorb (f child : Frame) : Frame :=
  { f with
    logs := f.logs ++ child.logs
    selfDestructs := child.selfDestructs.foldl (·.insert ·) f.selfDestructs }

end Frame
end Ethereum
