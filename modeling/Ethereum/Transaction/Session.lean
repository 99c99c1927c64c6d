/-
# Transactions

A session runs transactions one after the other over a journal and collects
their logs.  A transaction pays its intrinsic gas, raises the nonce of its sender
and runs a tree of frames.  Then accounts that deleted themselves are removed,
empty accounts are removed if the rules say so, and the scope of the transaction
is committed; a part of the gas used is refunded.  If anything fails fatally, the
scope is reverted and no gas counts as used.
-/

import Ethereum.Transaction.Tree

namespace Ethereum

/-- A transaction: a call of an account, or without one the creation of a
contract. -/
structure Transaction where
  sender : Address
  target : Option Address
  value : Word
  /-- The input of the call, or the init code. -/
  data : Bytes
  gasLimit : Nat
deriving DecidableEq, Repr

/-- What the transactions of a session are given. -/
structure SessionSetting extends Setting where
  block : Block
  gasPrice : Word

/-- Where a session stands. -/
structure Session where
  journal : Journal
  /-- The gas that the last transaction used, less its refund. -/
  usedGas : Nat
  /-- The logs of the transactions that succeeded. -/
  logs : Array Log
  trace : Trace

/-- How a transaction ended: the reason, and the output. -/
structure Receipt where
  reason : ExitReason
  output : Bytes
deriving DecidableEq, Repr

/-- Programs that run on a session and may end a transaction. -/
abbrev Transact := ReaderT SessionSetting (EStateM ExitReason Session)

namespace Session

/-- The session over a journal, before any transaction. -/
def ofJournal (j : Journal) (trace : Trace) : Session := ⟨j, 0, #[], trace⟩

/-- The session with its logs taken. -/
def takeLogs (s : Session) : Array Log × Session := (s.logs, { s with logs := #[] })

end Session

namespace Transact

/-- Records an event. -/
def emit (e : Event) : Transact Unit :=
  modify fun s => { s with trace := s.trace.emit e }

/-- Reads the state through the journal. -/
def reading {α : Type} (read : Journal → Store → Except StateError α) : Transact α := fun c s =>
  match read s.journal c.store with
  | .ok a => .ok a s
  | .error e => .error (.fatal e.toFatal) s

/-- Changes the state through the journal. -/
def changing {α : Type} (change : Store → Journal.Change α) : Transact α := fun c s =>
  match change c.store s.journal with
  | .ok a j => .ok a { s with journal := j }
  | .error e j => .error (.fatal e.toFatal) { s with journal := j }

/-- A program that drops the scope of the transaction if it fails. -/
def reverting {α : Type} (program : Transact α) : Transact α := fun c s =>
  match program c s with
  | .ok a s => .ok a s
  | .error e s => .error e { s with journal := s.journal.revert }

/-- Checks that the transaction can be paid for and raises the nonce of its
sender.  Gives the gas left for the root frame and the nonce before. -/
def begin (t : Transaction) : Transact (Nat × Nat) := do
  modify fun s => { s with usedGas := 0 }
  let intrinsic := (← read).config.schedule.intrinsic t.data t.target.isNone
  if t.gasLimit < intrinsic then throw (.error .outOfGas)
  if (← reading (·.balance · t.sender)) < t.value then throw (.error .outOfFund)
  let nonce ← changing (Journal.incrementNonce · t.sender)
  return (t.gasLimit - intrinsic, nonce)

/-- Runs the tree of a message and gives its root frame. -/
def runMessage (m : Message) : Transact Frame := fun c s =>
  let machine : Machine := ⟨.new c.config c.block m, s.journal, s.trace⟩
  match Lifecycle.runTree c.toSetting machine with
  | .ok _ machine =>
    .ok machine.frame { s with journal := machine.journal, trace := machine.trace }
  | .error e machine =>
    .error (.fatal e) { s with journal := machine.journal, trace := machine.trace }

/-- Removes touched accounts that are empty, if the rules say so. -/
def clearEmptyAccounts : Transact Unit := do
  if (← read).config.clearEmptyAccounts then
    (← get).journal.touched.forM fun address => do
      if ← reading (·.isEmpty · address) then
        changing fun _ => Journal.deleteAccount address

/-- The refund for a frame that succeeded, out of `used` gas. -/
def refund (f : Frame) (used : Nat) : Nat :=
  let forDeletions := Quantity.satMul Gas.selfdestructRefund.toNat f.selfDestructs.size
  min (used / Gas.maxRefundQuotient) (Quantity.satAdd f.refund.toNat forDeletions)

/-- Removes the accounts that deleted themselves in a frame that succeeded, and
collects its logs. -/
def collect (f : Frame) : Transact Unit := do
  f.selfDestructs.toList.forM fun address => changing fun _ => Journal.deleteAccount address
  modify fun s => { s with logs := s.logs ++ f.logs }

/-- Runs the tree of a message, settles the transaction and counts its gas. -/
def finish (gasLimit : Nat) (m : Message) : Transact Receipt := do
  let f ← reverting (runMessage m)
  let used := gasLimit - f.gas
  let succeeded : Bool := f.state = .completedSuccess
  if succeeded then collect f
  reverting do
    clearEmptyAccounts
    changing Journal.commit
  modify fun s => { s with usedGas := used - if succeeded then refund f used else 0 }
  return ⟨f.exitReason, f.output⟩

/-- The message of a transaction to a contract, with the gas and code of its root
frame. -/
def message (setting : SessionSetting) (t : Transaction) (kind : MessageKind) (contract : Address)
    (code : Bytes) (gas : Nat) : Message where
  kind
  sender := t.sender
  recipient := contract
  contract
  originator := t.sender
  gasPrice := setting.gasPrice
  value := t.value
  apparentValue := t.value
  input := match kind with
    | .call => t.data
    | .creation => []
  code
  gas
  depth := 0
  isStatic := false

/-- Runs a transaction that calls an account. -/
def call (t : Transaction) (target : Address) : Transact Receipt := do
  let (gas, _) ← begin t
  let code ← reverting (reading (·.code · target))
  finish t.gasLimit (message (← read) t .call target code gas)

/-- The address of the contract that a transaction creates. -/
def createdAddress (t : Transaction) (nonce : Nat) : Address :=
  (CreateScheme.legacy t.sender nonce).address

/-- Runs a transaction that creates a contract at an address, once it has
begun. -/
def create (t : Transaction) (gas : Nat) (address : Address) : Transact Receipt := do
  emit (.transactCreate t.sender t.value t.data t.gasLimit address)
  finish t.gasLimit (message (← read) t .creation address t.data gas)

end Transact

namespace Session

/-- The session after an event. -/
def record (s : Session) (e : Event) : Session := { s with trace := s.trace.emit e }

/-- The receipt of a transaction at an address, whose end is recorded. -/
def conclude (address : Address) (result : EStateM.Result ExitReason Session Receipt) :
    Receipt × Session :=
  match result with
  | .ok receipt s => (receipt, s.record (.exit address receipt.reason receipt.output))
  | .error reason s => (⟨reason, []⟩, s.record (.exit address reason []))

/-- Runs a transaction. -/
def transact (setting : SessionSetting) (t : Transaction) (s : Session) : Receipt × Session :=
  match t.target with
  | some target =>
    let s := s.record (.transactCall t.sender target t.value t.data t.gasLimit)
    conclude target (Transact.call t target setting s)
  | none =>
    match Transact.begin t setting s with
    | .error reason s => conclude t.sender (.error reason s)
    | .ok (gas, nonce) s =>
      let address := Transact.createdAddress t nonce
      conclude address (Transact.create t gas address setting s)

end Session
end Ethereum
