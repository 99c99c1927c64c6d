/-
# Traces

Executions can be watched.  A trace that is on records an event for each charge
of gas, each refund, each step and each access to storage, and for the beginning
and the end of transactions and of the frames in them.
-/

import Ethereum.Stack

namespace Ethereum

/-- Something that happened during an execution. -/
inductive Event where
  /-- A charge, paid or not, with the gas before it. -/
  | cost (cost gas : Nat)
  /-- A refund, with the counter before it. -/
  | refund (amount counter : Int)
  /-- An instruction about to be charged. -/
  | step (contract : Address) (opcode : UInt8) (pc gas : Nat) (stack : Stack) (memorySize : Word)
  | sload (address : Address) (key value : Word)
  | sstore (address : Address) (key value : Word)
  | transactCall (caller address : Address) (value : Word) (data : Bytes) (gasLimit : Nat)
  | transactCreate (caller : Address) (value : Word) (initCode : Bytes) (gasLimit : Nat)
    (address : Address)
  | call (contract sender : Address) (value : Word) (input : Bytes) (gas : Nat) (isStatic : Bool)
    (depth : Nat)
  | create (caller address : Address) (value : Word) (initCode : Bytes) (gas depth : Nat)
  | exit (address : Address) (reason : ExitReason) (output : Bytes)
deriving Repr

/-- The events so far, if the trace is on. -/
structure Trace where
  events? : Option (Array Event)

namespace Trace

/-- The trace that records nothing. -/
def off : Trace := ⟨none⟩

/-- The trace that starts to record. -/
def on : Trace := ⟨some #[]⟩

/-- The trace after an event. -/
def emit (t : Trace) (e : Event) : Trace := ⟨t.events?.map (·.push e)⟩

/-- The recorded events, in order. -/
def events (t : Trace) : Array Event := t.events?.getD #[]

end Trace
end Ethereum
