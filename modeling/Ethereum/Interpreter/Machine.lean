/-
# The machine

A machine runs one frame over a journal and records a trace.  Instructions are
programs in `Exec`: they read a context, change the machine and end the code by
throwing the reason.  What an instruction changed before it threw stays changed.
-/

import Ethereum.Frame
import Ethereum.Instruction
import Ethereum.State.Journal
import Ethereum.Trace

namespace Ethereum

/-- What an execution is given. -/
structure Context where
  config : Config
  instructions : InstructionSet
  store : Store

/-- A frame that runs over a journal. -/
structure Machine where
  frame : Frame
  journal : Journal
  trace : Trace

/-- Programs that run on a machine and may end its code. -/
abbrev Exec := ReaderT Context (EStateM ExitReason Machine)

/-- Programs that run on a machine and only fail fatally. -/
abbrev Run := ReaderT Context (EStateM ExitFatal Machine)

instance : MonadLift (Except ExitError) (Except ExitReason) where
  monadLift x := x.mapError .error

instance : MonadLift (Except ExitFatal) (Except ExitReason) where
  monadLift x := x.mapError .fatal

instance : MonadLift (Except StateError) (Except ExitReason) where
  monadLift x := x.mapError fun e => .fatal e.toFatal

instance : MonadLift (Except ExitReason) Exec where
  monadLift x := fun _ m =>
    match x with
    | .ok a => .ok a m
    | .error e => .error e m

namespace Machine

/-- Changes the frame. -/
def modifyFrame {ε : Type} (change : Frame → Frame) : EStateM ε Machine Unit :=
  modify fun m => { m with frame := change m.frame }

/-- Records an event. -/
def emit {ε : Type} (e : Event) : EStateM ε Machine Unit :=
  modify fun m => { m with trace := m.trace.emit e }

/-- Takes gas off the frame, if there is enough; the charge is recorded in any
case. -/
def charge (cost : Nat) : EStateM ExitError Machine Unit := do
  emit (.cost cost (← get).frame.gas)
  fun m =>
    match m.frame.charge cost with
    | .ok f => .ok () { m with frame := f }
    | .error e => .error e m

/-- Takes gas off the frame, and tells whether there was enough. -/
def tryCharge {ε : Type} (cost : Nat) : EStateM ε Machine Bool := fun m =>
  match charge cost m with
  | .ok _ m => .ok true m
  | .error _ m => .ok false m

/-- Adds to the refund counter of the frame. -/
def addRefund {ε : Type} (amount : Int) : EStateM ε Machine Unit := do
  emit (.refund amount (← get).frame.refund)
  modifyFrame (·.addRefund amount)

/-- A change of the journal. -/
def changing {ε α : Type} (error : StateError → ε) (change : Journal.Change α) :
    EStateM ε Machine α := fun m =>
  match change m.journal with
  | .ok a j => .ok a { m with journal := j }
  | .error e j => .error (error e) { m with journal := j }

end Machine

namespace Exec

/-- The frame. -/
def frame : Exec Frame := return (← get).frame

/-- Changes the frame. -/
def modifyFrame (change : Frame → Frame) : Exec Unit :=
  fun _ => Machine.modifyFrame change

/-- Records an event. -/
def emit (e : Event) : Exec Unit := fun _ => Machine.emit e

/-- Takes gas off the frame. -/
def charge (cost : Nat) : Exec Unit :=
  fun _ m =>
    match Machine.charge cost m with
    | .ok _ m => .ok () m
    | .error e m => .error (.error e) m

/-- Reads the state through the journal. -/
def reading {α : Type} (read : Journal → Store → Except StateError α) : Exec α := fun c m =>
  match read m.journal c.store with
  | .ok a => .ok a m
  | .error e => .error (.fatal e.toFatal) m

/-- Changes the state through the journal. -/
def changing {α : Type} (change : Store → Journal.Change α) : Exec α := fun c =>
  Machine.changing (fun e => .fatal e.toFatal) (change c.store)

/-- Takes the top item off the stack. -/
def pop : Exec Word := do
  let (w, stack) ← (← frame).stack.pop
  modifyFrame fun f => { f with stack }
  return w

/-- Takes items off the stack, the top first. -/
def popMany : Nat → Exec (List Word)
  | 0 => return []
  | n + 1 => return (← pop) :: (← popMany n)

/-- Puts a word on the stack. -/
def push (w : Word) : Exec Unit := do
  let stack ← (← frame).stack.push w
  modifyFrame fun f => { f with stack }

/-- Grows the memory to cover `len` bytes at `offset`. -/
def growMemory (offset len : Word) : Exec Unit := do
  let m ← (← frame).memory.resizeOffset offset len
  modifyFrame fun f => { f with memory := { f.memory with size := m.size } }

/-- A word as a quantity, which the machine needs to address its memory. -/
def quantity (w : Word) : Exec Nat :=
  match w.toQuantity? with
  | some n => return n
  | none => throw (.fatal .notSupported)

/-- Writes `len` bytes into memory: `bytes` cut or padded with zeros. -/
def writeMemory (offset : Nat) (bytes : Bytes) (len : Nat) : Exec Unit := do
  if (← frame).memory.admits offset len then
    modifyFrame fun f => { f with memory := f.memory.write offset (bytes.fit len) }
  else throw (.fatal .notSupported)

/-- Copies `len` bytes of `data` from `dataOffset` into memory, with zeros past
the end of `data`. -/
def copyToMemory (offset dataOffset len : Word) (data : Bytes) : Exec Unit := do
  unless len = 0 do
    writeMemory (← quantity offset) (Memory.source data dataOffset len) (← quantity len)

/-- The `len` bytes of memory at `offset`, which the memory grows to cover. -/
def readMemory (offset len : Word) : Exec Bytes := do
  growMemory offset len
  if len = 0 then return []
  let start ← quantity offset
  let length ← quantity len
  return (← frame).memory.get start length

end Exec
end Ethereum
