/-
# Trees of frames

A frame and all frames that it spawns run one at a time, each in a scope of its
own.  While a child runs, its parents wait on a stack.  If anything fails
fatally, all open scopes are reverted.
-/

import Ethereum.Transaction.Lifecycle

namespace Ethereum
namespace Frame

/-- The event of a child that begins. -/
def beginEvent (f : Frame) : Event :=
  let m := f.message
  match m.kind with
  | .call => .call m.contract m.sender m.value m.input f.gas m.isStatic m.depth
  | .creation => .create m.sender m.contract m.value m.code f.gas m.depth

/-- Why the frame ended; a stop if nothing else is known. -/
def exitReason (f : Frame) : ExitReason := f.exit.getD (.succeed .stopped)

/-- The event of a frame that ends. -/
def endEvent (f : Frame) : Event := .exit f.message.contract f.exitReason f.output

end Frame

namespace Lifecycle

/-- The outcome of one round of a tree: it goes on with these parents, or its
root has completed. -/
inductive Round where
  | more (parents : List Frame)
  | done

/-- Begins the child of a suspended frame, in a new scope. -/
def descend (parents : List Frame) : Lifecycle Round := do
  match (← frame).takeChild with
  | (none, _) => throw .unhandledInterrupt
  | (some child, parent) =>
    modify fun m =>
      { frame := child, journal := m.journal.enter, trace := m.trace.emit child.beginEvent }
    return .more (parent :: parents)

/-- Hands a completed frame to its parent. -/
def ascend (parent : Frame) (parents : List Frame) : Lifecycle Round := do
  let child ← frame
  modify fun m => { m with frame := parent, trace := m.trace.emit child.endEvent }
  fun _ => Machine.resume child
  return .more parents

/-- The journal with some scopes reverted. -/
def unwind : Nat → Journal → Journal
  | 0, j => j
  | n + 1, j => unwind n j.revert

/-- A program that reverts `scopes` scopes if it fails. -/
def unwinding {α : Type} (scopes : Nat) (program : Lifecycle α) : Lifecycle α := fun s m =>
  match program s m with
  | .ok a m => .ok a m
  | .error e m => .error e { m with journal := unwind scopes m.journal }

/-- One round: the frame advances, and then its child begins or its parent goes
on.  A failure reverts the scopes of the frames that are open at the time. -/
def round (parents : List Frame) : Lifecycle Round := do
  let depth := parents.length
  unwinding (depth + 1) advance
  if (← frame).state = .codeSuspended then
    unwinding (depth + 1) (descend parents)
  else
    match parents with
    | [] => return .done
    | parent :: rest => unwinding depth (ascend parent rest)

/-- At most `fuel` rounds, until the root has completed. -/
def rounds : Nat → List Frame → Lifecycle Unit
  | 0, _ => return ()
  | fuel + 1, parents => do
    match ← round parents with
    | .done => return ()
    | .more parents => rounds fuel parents

/-- Runs the frame and all that it spawns to completion, in a new scope.  Each
child that begins takes gas off the tree, and each round begins a child or
completes a frame, which bounds the number of rounds. -/
def runTree : Lifecycle Unit := do
  modify fun m => { m with journal := m.journal.enter }
  rounds (2 * (← frame).gas + 2) []

end Lifecycle
end Ethereum
