/-
# The lifecycle of a frame

A frame is started, runs its code and is settled.  Calls move their value and
then run a precompiled contract or code; creations also refuse an address that is
taken, and deploy the output of their code.  A frame that completed commits its
scope if it succeeded and reverts it if it failed.  Accounts on a list of forced
addresses that a failed frame touched are kept in existence.
-/

import Ethereum.Interpreter.Resume
import Ethereum.Interpreter.Step
import Ethereum.Precompile

namespace Ethereum

/-- What the execution of messages is given. -/
structure Setting extends Context where
  precompiles : Precompiles
  /-- The addresses that stay in existence when a frame that touched them
  fails. -/
  forced : Std.ExtTreeSet Address

/-- Programs that run messages on a machine. -/
abbrev Lifecycle := ReaderT Setting (EStateM ExitFatal Machine)

namespace Lifecycle

/-- The frame. -/
def frame : Lifecycle Frame := return (← get).frame

/-- Changes the frame. -/
def modifyFrame (change : Frame → Frame) : Lifecycle Unit :=
  fun _ => Machine.modifyFrame change

/-- Reads the state through the journal. -/
def reading {α : Type} (read : Journal → Store → Except StateError α) : Lifecycle α := fun s m =>
  match read m.journal s.store with
  | .ok a => .ok a m
  | .error e => .error e.toFatal m

/-- Changes the state through the journal. -/
def changing {α : Type} (change : Store → Journal.Change α) : Lifecycle α := fun s =>
  Machine.changing StateError.toFatal (change s.store)

/-- Takes gas off the frame, and tells whether there was enough. -/
def tryCharge (cost : Nat) : Lifecycle Bool := fun _ => Machine.tryCharge cost

/-- Charges and runs a precompiled contract, which completes or halts the
frame. -/
def runPrecompile (p : Precompile) : Lifecycle Unit := do
  let input := (← frame).message.input
  if ← tryCharge (p.gas input) then
    match p.compute input with
    | some output =>
      modifyFrame fun f =>
        { f with output, exit := some (.succeed .returned), state := .completedSuccess }
    | none => modifyFrame (·.halt .precompileFailure)
  else modifyFrame (·.halt .outOfGas)

/-- Moves the value of the message. -/
def transferValue (target : Address) : Lifecycle Unit := do
  let m := (← frame).message
  changing (Journal.transfer · m.sender target m.value)

/-- Starts a call. -/
def startCall : Lifecycle Unit := do
  let m := (← frame).message
  transferValue m.recipient
  match (← read).precompiles[m.contract]? with
  | some p => runPrecompile p
  | none => modifyFrame fun f => { f with state := .codeExecuting }

/-- Whether an address is taken: by code, or by a nonce that is not zero. -/
def isTaken (address : Address) : Lifecycle Bool := do
  let codeHash ← reading (·.codeHash · address)
  if codeHash ≠ 0 ∧ codeHash ≠ Store.emptyCodeHash then return true
  return (← reading (·.nonce · address)) ≠ 0

/-- Starts a creation. -/
def startCreation : Lifecycle Unit := do
  let address := (← frame).message.contract
  if ← isTaken address then
    modifyFrame (·.halt .createCollision)
  else
    transferValue address
    if (← read).config.createIncreaseNonce then
      let _ ← changing (Journal.incrementNonce · address)
    modifyFrame fun f => { f with state := .codeExecuting }

/-- Starts the frame. -/
def start : Lifecycle Unit := do
  match (← frame).message.kind with
  | .call => startCall
  | .creation => startCreation

/-- Deploys the output of init code, if it is not too large and can be paid
for. -/
def deploy : Lifecycle Unit := do
  let f ← frame
  let c := (← read).config
  let tooLarge := c.createContractLimit.any (· < f.output.length)
  if tooLarge then
    modifyFrame (·.halt .createContractLimit)
  else if ← tryCharge (Gas.codeDeposit f.output.length) then
    changing (Journal.setCode · f.message.contract f.output)
    modifyFrame fun f => { f with state := .completedSuccess }
  else if c.exceptionalFailureOnCodeDeposit then
    modifyFrame (·.halt .outOfGas)
  else
    modifyFrame fun f => { f with state := .completedSuccess }

/-- Completes a frame whose code stopped well. -/
def succeed : Lifecycle Unit := do
  match (← frame).message.kind with
  | .call => modifyFrame fun f => { f with state := .completedSuccess }
  | .creation => deploy

/-- Reverts the scope of a failed frame, and keeps the forced addresses that it
touched in existence. -/
def revertScope : Lifecycle Unit := do
  let forced := (← get).journal.touched.filter ((← read).forced.contains ·)
  modify fun m => { m with journal := m.journal.revert }
  forced.forM fun address => changing (Journal.getOrCreate · address)

/-- The frame once a halt or a revert has failed it.  A halt takes its gas and
its output. -/
def failed (f : Frame) : Frame :=
  match f.state with
  | .exceptionalHalt => { f with gas := 0, output := [], state := .completedFailed }
  | .revert => { f with state := .completedFailed }
  | _ => f

/-- Settles the scope of a frame that completed. -/
def settleScope : Lifecycle Unit := do
  match (← frame).state with
  | .completedSuccess => changing Journal.commit
  | .completedFailed => revertScope
  | _ => return ()

/-- Runs the frame until it completes or waits for a child. -/
def advance : Lifecycle Unit := do
  if (← frame).state = .notStarted then start
  if (← frame).state = .codeExecuting then fun s => Run.toHalt s.toContext
  if (← frame).state = .codeSuccess then succeed
  modifyFrame failed
  settleScope

end Lifecycle
end Ethereum
