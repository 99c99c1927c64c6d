/-
# Overlays

An overlay holds an account with its pending changes.  It lies over the account
that it was read from, or over nothing if the account is new; then its storage
starts out empty.
-/

import Ethereum.State.World

namespace Ethereum

/-- An account with pending changes. -/
structure Overlay where
  address : Address
  /-- The account under the changes. -/
  base : Option Account
  nonce : Nat
  balance : Word
  codeHash : Hash
  /-- The new code. -/
  newCode : Option Bytes
  /-- Whether the storage of the account under the changes is gone. -/
  storageCleared : Bool
  /-- The slots that were written; a zero removes its slot. -/
  slots : Std.ExtTreeMap Word Word

namespace Overlay

/-- An account without changes. -/
def ofAccount (a : Account) : Overlay where
  address := a.address
  base := some a
  nonce := a.nonce
  balance := a.balance
  codeHash := a.codeHash
  newCode := none
  storageCleared := false
  slots := ∅

/-- A new account. -/
def fresh (address : Address) (nonce : Nat) (balance : Word) : Overlay where
  address
  base := none
  nonce
  balance
  codeHash := Store.emptyCodeHash
  newCode := none
  storageCleared := true
  slots := ∅

/-- Whether there is neither code nor nonce nor balance. -/
def isEmpty (o : Overlay) : Bool :=
  o.nonce = 0 && o.balance = 0 && o.codeHash = Store.emptyCodeHash

/-- Whether the code was set. -/
def codeWasUpdated (o : Overlay) : Bool := o.newCode.isSome

/-- The account whose storage shows through where no slot was written. -/
def visibleBase (o : Overlay) : Option Account :=
  if o.storageCleared then none else o.base

/-- The code. -/
def code (o : Overlay) (w : World) (store : Store) : Except StateError Bytes :=
  match o.newCode, o.base with
  | some code, _ => .ok code
  | none, some a => w.accountCode store a
  | none, none => .ok []

/-- The value of a slot. -/
def slot (o : Overlay) (w : World) (store : Store) (key : Word) : Except StateError Word :=
  match o.slots[key]?, o.visibleBase with
  | some value, _ => .ok value
  | none, some a => w.accountSlot store a key
  | none, none => .ok 0

/-- Sets the nonce. -/
def setNonce (n : Nat) (o : Overlay) : Overlay := { o with nonce := n }

/-- Raises the nonce by one, up to the largest quantity. -/
def incrementNonce (o : Overlay) : Overlay := { o with nonce := Quantity.satAdd o.nonce 1 }

/-- Sets the balance. -/
def setBalance (amount : Word) (o : Overlay) : Overlay := { o with balance := amount }

/-- Raises the balance, up to the largest word. -/
def incrementBalance (amount : Word) (o : Overlay) : Overlay :=
  { o with balance := Word.satAdd o.balance amount }

/-- Lowers the balance, down to zero. -/
def decrementBalance (amount : Word) (o : Overlay) : Overlay :=
  { o with balance := Word.satSub o.balance amount }

/-- Sets the code. -/
def setCode (code : Bytes) (o : Overlay) : Overlay :=
  { o with newCode := some code, codeHash := keccak code }

/-- Writes a slot. -/
def setSlot (key value : Word) (o : Overlay) : Overlay :=
  { o with slots := o.slots.insert key value }

/-- Empties the storage. -/
def clearStorage (o : Overlay) : Overlay := { o with storageCleared := true, slots := ∅ }

end Overlay
end Ethereum
