/-
# A model of the state by snapshots

The plain model of the state keeps whole maps of accounts (`Snapshots`): entering a
scope saves the map, reverting restores it, and committing drops what was saved.
Every call of the journal and of the world has a meaning on snapshots
(`Snapshots.call`), beside the one that it has on a journal over a store
(`Ledger.call`).
-/

import Mathlib
import Ethereum.Proofs.State.Holding

namespace Ethereum

/-! ## Calls -/

/-- A change of an account that is at hand. -/
inductive Edit where
  | setNonce (n : UInt64)
  | incrementNonce
  | setBalance (amount : Word)
  | incrementBalance (amount : Word)
  | decrementBalance (amount : Word)
  | setCode (code : Bytes)
  | setSlot (key value : Word)
  | clearStorage
deriving DecidableEq, Repr

/-- A read of an account in the innermost scope. -/
inductive Read where
  | present
  | isEmpty
  | balance
  | nonce
  | code
  | codeHash
  | slot (key : Word)
deriving DecidableEq, Repr

/-- A read of an account in the world. -/
inductive WorldRead where
  | account
  | code
  | slot (key : Word)
deriving DecidableEq, Repr

/-- A call of the journal or of the world under it. -/
inductive Call where
  /-- Drops the journal and opens one on the world. -/
  | reopen
  | createAccount (address : Address) (nonce : UInt64) (balance : Word)
  | getOrCreate (address : Address)
  /-- Edits an account, if there is one. -/
  | mutate (address : Address) (edits : List Edit)
  | incrementBalance (address : Address) (amount : Word)
  | decrementBalance (address : Address) (amount : Word)
  | incrementNonce (address : Address)
  | setSlot (address : Address) (key value : Word)
  | setCode (address : Address) (code : Bytes)
  | deleteAccount (address : Address)
  | enter
  | commit
  | revert
  /-- Drops the journal, persists the world and opens a journal on it. -/
  | persist
  | read (address : Address) (r : Read)
  | readWorld (address : Address) (r : WorldRead)
deriving DecidableEq, Repr

/-- What a call returns. -/
inductive Answer where
  | done
  | flag (b : Bool)
  | number (n : Nat)
  | word (w : Word)
  | bytes (b : Bytes)
  /-- The nonce, the balance and the hash of the code of an account. -/
  | account (found : Option (Nat × Word × Hash))
deriving DecidableEq, Repr

/-! ## Snapshots -/

namespace Plain

/-- Raises the nonce by one, as far as it goes. -/
def incrementNonce (p : Plain) : Plain := { p with nonce := min (p.nonce + 1) (2 ^ 64 - 1) }

/-- Raises the balance, as far as it goes. -/
def incrementBalance (amount : Word) (p : Plain) : Plain :=
  { p with balance := .ofNat 256 (min (p.balance.toNat + amount.toNat) (2 ^ 256 - 1)) }

/-- Lowers the balance, down to zero. -/
def decrementBalance (amount : Word) (p : Plain) : Plain :=
  { p with balance := .ofNat 256 (p.balance.toNat - amount.toNat) }

/-- Writes a slot. -/
def setSlot (key value : Word) (p : Plain) : Plain :=
  { p with slots := Function.update p.slots key value }

end Plain

/-- An edit of plain data. -/
def Edit.plain : Edit → Plain → Plain
  | setNonce n, p => { p with nonce := n.toNat }
  | incrementNonce, p => p.incrementNonce
  | setBalance amount, p => { p with balance := amount }
  | incrementBalance amount, p => p.incrementBalance amount
  | decrementBalance amount, p => p.decrementBalance amount
  | setCode code, p => { p with code }
  | setSlot key value, p => p.setSlot key value
  | clearStorage, p => { p with slots := fun _ => 0 }

/-- What is read of an account, or of none. -/
def Read.plain (found : Option Plain) : Read → Answer
  | present => .flag found.isSome
  | isEmpty => .flag ((found.map fun p => decide (p.nonce = 0 ∧ p.balance = 0 ∧ p.code = [])).getD false)
  | balance => .word ((found.map Plain.balance).getD 0)
  | nonce => .number ((found.map Plain.nonce).getD 0)
  | code => .bytes ((found.map Plain.code).getD [])
  | codeHash => .word ((found.map fun p => keccak p.code).getD 0)
  | slot key => .word ((found.map fun p => p.slots key).getD 0)

/-- What is read of an account of the world, or of none. -/
def WorldRead.plain (found : Option Plain) : WorldRead → Answer
  | account => .account (found.map fun p => (p.nonce, p.balance, keccak p.code))
  | code => .bytes ((found.map Plain.code).getD [])
  | slot key => .word ((found.map fun p => p.slots key).getD 0)

/-- The accounts of the world, those that were saved when scopes were entered, and those
that the innermost scope shows. -/
structure Snapshots where
  world : Plains
  saved : List Plains
  current : Plains

namespace Snapshots

/-- No accounts. -/
def start : Snapshots := ⟨fun _ => none, [], fun _ => none⟩

/-- The account at an address, or a new one. -/
def findOrFresh (m : Snapshots) (address : Address) : Plain :=
  (m.current address).getD (.fresh 0 0)

/-- Replaces the account at an address. -/
def put (address : Address) (found : Option Plain) (m : Snapshots) : Snapshots :=
  { m with current := Function.update m.current address found }

/-- Changes the account at an address, which is created if there is none. -/
def update (address : Address) (change : Plain → Plain) (m : Snapshots) : Snapshots :=
  m.put address (some (change (m.findOrFresh address)))

/-- Starts again from the world. -/
def reopen (m : Snapshots) : Snapshots := ⟨m.world, [], m.world⟩

/-- Saves the accounts. -/
def enter (m : Snapshots) : Snapshots := { m with saved := m.current :: m.saved }

/-- Restores what was saved last, or the world. -/
def revert (m : Snapshots) : Snapshots :=
  match m.saved with
  | [] => m.reopen
  | last :: rest => ⟨m.world, rest, last⟩

/-- Drops what was saved last; if nothing is saved, the accounts become the world. -/
def commit (m : Snapshots) : Snapshots :=
  match m.saved with
  | [] => ⟨m.current, [], m.current⟩
  | _ :: rest => { m with saved := rest }

/-- A call on snapshots. -/
def call (m : Snapshots) : Call → Answer × Snapshots
  | .reopen => (.done, m.reopen)
  | .createAccount address nonce balance =>
    (.done, m.put address (some (.fresh nonce.toNat balance)))
  | .getOrCreate address => (.done, m.update address id)
  | .mutate address edits =>
    match m.current address with
    | some p => (.flag true, m.put address (some (edits.foldl (fun p e => e.plain p) p)))
    | none => (.flag false, m)
  | .incrementBalance address amount =>
    (.word (m.findOrFresh address).balance, m.update address (.incrementBalance amount))
  | .decrementBalance address amount =>
    (.word (m.findOrFresh address).balance, m.update address (.decrementBalance amount))
  | .incrementNonce address =>
    (.number (m.findOrFresh address).nonce, m.update address .incrementNonce)
  | .setSlot address key value => (.done, m.update address (.setSlot key value))
  | .setCode address code => (.done, m.update address fun p => { p with code })
  | .deleteAccount address => (.done, m.put address none)
  | .enter => (.done, m.enter)
  | .commit => (.done, m.commit)
  | .revert => (.done, m.revert)
  | .persist => (.done, m.reopen)
  | .read address r => (r.plain (m.current address), m)
  | .readWorld address r => (r.plain (m.world address), m)

/-- The answers to calls one after the other. -/
def answers : List Call → Snapshots → List Answer
  | [], _ => []
  | c :: cs, m => (m.call c).1 :: answers cs (m.call c).2

end Snapshots

/-! ## Journals over a store -/

/-- An edit of an overlay. -/
def Edit.overlay : Edit → Overlay → Overlay
  | setNonce n => .setNonce n.toNat
  | incrementNonce => .incrementNonce
  | setBalance amount => .setBalance amount
  | incrementBalance amount => .incrementBalance amount
  | decrementBalance amount => .decrementBalance amount
  | setCode code => .setCode code
  | setSlot key value => .setSlot key value
  | clearStorage => .clearStorage

/-- A journal and the store under its world. -/
structure Ledger where
  store : Store
  journal : Journal

namespace Ledger

/-- The empty world over a store that never fails. -/
def start (entries : Std.ExtTreeMap Bytes Bytes) : Ledger :=
  ⟨⟨entries, 0, false⟩, .ofWorld .empty⟩

/-- A change of the journal. -/
def change {α : Type} (s : Ledger) (c : Journal.Change α) (answer : α → Answer) :
    Except StateError Answer × Ledger :=
  match c s.journal with
  | .ok a j => (.ok (answer a), { s with journal := j })
  | .error e j => (.error e, { s with journal := j })

/-- A read of the journal. -/
def read (s : Ledger) (address : Address) : Read → Except StateError Answer
  | .present => (s.journal.exists? s.store address).map .flag
  | .isEmpty => (s.journal.isEmpty s.store address).map .flag
  | .balance => (s.journal.balance s.store address).map .word
  | .nonce => (s.journal.nonce s.store address).map .number
  | .code => (s.journal.code s.store address).map .bytes
  | .codeHash => (s.journal.codeHash s.store address).map .word
  | .slot key => (s.journal.slot s.store address key).map .word

/-- A read of the world. -/
def readWorld (s : Ledger) (address : Address) : WorldRead → Except StateError Answer
  | .account => (s.journal.world.account? s.store address).map fun found =>
    .account (found.map fun a => (a.nonce, a.balance, a.codeHash))
  | .code => (s.journal.world.code s.store address).map .bytes
  | .slot key => (s.journal.world.slot s.store address key).map .word

/-- A call: what it returns, and what it leaves. -/
def call (s : Ledger) : Call → Except StateError Answer × Ledger
  | .reopen => (.ok .done, { s with journal := .ofWorld s.journal.world })
  | .createAccount address nonce balance =>
    s.change (Journal.createAccount address nonce.toNat balance) fun _ => .done
  | .getOrCreate address => s.change (Journal.getOrCreate s.store address) fun _ => .done
  | .mutate address edits =>
    s.change (Journal.update? s.store address fun o => edits.foldl (fun o e => e.overlay o) o)
      fun found => .flag found.isSome
  | .incrementBalance address amount =>
    s.change (Journal.incrementBalance s.store address amount) .word
  | .decrementBalance address amount =>
    s.change (Journal.decrementBalance s.store address amount) .word
  | .incrementNonce address => s.change (Journal.incrementNonce s.store address) .number
  | .setSlot address key value =>
    s.change (Journal.setSlot s.store address key value) fun _ => .done
  | .setCode address code => s.change (Journal.setCode s.store address code) fun _ => .done
  | .deleteAccount address => s.change (Journal.deleteAccount address) fun _ => .done
  | .enter => (.ok .done, { s with journal := s.journal.enter })
  | .commit => s.change (Journal.commit s.store) fun _ => .done
  | .revert => (.ok .done, { s with journal := s.journal.revert })
  | .persist =>
    match s.journal.world.persist s.store with
    | .ok w store => (.ok .done, ⟨store, .ofWorld w⟩)
    | .error e store => (.error (.store e), ⟨store, .ofWorld s.journal.world⟩)
  | .read address r => (s.read address r, s)
  | .readWorld address r => (s.readWorld address r, s)

/-- The answers to calls one after the other. -/
def answers : List Call → Ledger → List (Except StateError Answer)
  | [], _ => []
  | c :: cs, s => (s.call c).1 :: answers cs (s.call c).2

end Ledger

/-! ## What is hashed -/

/-- The bytes that an edit hashes. -/
def Edit.hashed : Edit → List Bytes
  | setCode code => [code]
  | setSlot key _ => [Word.toBytes key]
  | _ => []

/-- The bytes that a read hashes beside the address. -/
def Read.hashed : Read → List Bytes
  | slot key => [Word.toBytes key]
  | _ => []

/-- The bytes that a read of the world hashes beside the address. -/
def WorldRead.hashed : WorldRead → List Bytes
  | slot key => [Word.toBytes key]
  | _ => []

/-- The bytes that a call hashes: addresses, keys of slots and code, and what is
persisted. -/
def Call.hashed (s : Ledger) : Call → List Bytes
  | reopen | enter | commit | revert => []
  | createAccount address _ _ | getOrCreate address | incrementBalance address _
  | decrementBalance address _ | incrementNonce address | deleteAccount address =>
    [Address.toBytes address]
  | mutate address edits => Address.toBytes address :: edits.flatMap Edit.hashed
  | setSlot address key _ => [Address.toBytes address, Word.toBytes key]
  | setCode address code => [Address.toBytes address, code]
  | persist => s.journal.world.pending
  | read address r => Address.toBytes address :: r.hashed
  | readWorld address r => Address.toBytes address :: r.hashed

/-- The bytes that are hashed by calls one after the other. -/
def Ledger.hashed : List Call → Ledger → List Bytes
  | [], _ => []
  | c :: cs, s => c.hashed s ++ hashed cs (s.call c).2

end Ethereum
