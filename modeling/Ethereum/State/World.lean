/-
# The world

The world is the state of all accounts.  A trie holds the accounts by the hashes
of their addresses, and each account has a trie of slots by the hashes of their
keys.  Tries and code that were changed stay in memory (`storages`, `codes`)
until the world is persisted; all else is read from a store.
-/

import Ethereum.State.Account

namespace Ethereum

/-- The state of all accounts, with the changes that are not persisted yet. -/
structure World where
  /-- The accounts, by the hashes of their addresses. -/
  accounts : Trie
  /-- The changed storage of accounts. -/
  storages : Std.ExtTreeMap Address Trie
  /-- New code, by hash. -/
  codes : Std.ExtTreeMap Hash Bytes

/-- The key under which storage holds a slot. -/
def slotHash (key : Word) : Hash := keccak (Word.toBytes key)

namespace World

/-- The world that was persisted with a root. -/
def ofRoot (root : Hash) : World := ⟨.ofRoot root, ∅, ∅⟩

/-- The world without accounts. -/
def empty : World := ofRoot Node.emptyHash

/-- The hash that commits to all accounts. -/
def rootHash (w : World) : Hash := w.accounts.rootHash

/-- Worlds are told apart by their roots. -/
def sameRoot (v w : World) : Bool := v.rootHash == w.rootHash

/-- The account at an address. -/
def account? (w : World) (store : Store) (address : Address) :
    Except StateError (Option Account) := do
  match ← (w.accounts.get store.nodes (Hash.toBytes address.hash)).mapError .trie with
  | none => return none
  | some b => return some (← (Account.decode address b).mapError .decoder)

/-- The code of an account. -/
def accountCode (w : World) (store : Store) (a : Account) : Except StateError Bytes := do
  if a.codeHash = Store.emptyCodeHash then return []
  match w.codes[a.codeHash]? with
  | some code => return code
  | none =>
    match ← (store.code a.codeHash).mapError .store with
    | some code => return code
    | none => throw (.missingCode a.codeHash)

/-- The storage of an account: the changed one, or the one in the store. -/
def storageOf (w : World) (a : Account) : Trie :=
  w.storages.getD a.address (.ofRoot a.storageRoot)

/-- The value of a slot of an account. -/
def accountSlot (w : World) (store : Store) (a : Account) (key : Word) :
    Except StateError Word := do
  match ← ((w.storageOf a).get store.nodes (Hash.toBytes (slotHash key))).mapError .trie with
  | none => return 0
  | some b => (Rlp.word b).mapError .decoder

/-- The code at an address; empty if there is no account. -/
def code (w : World) (store : Store) (address : Address) : Except StateError Bytes := do
  match ← w.account? store address with
  | none => return []
  | some a => w.accountCode store a

/-- The value of a slot at an address; zero if there is no account. -/
def slot (w : World) (store : Store) (address : Address) (key : Word) :
    Except StateError Word := do
  match ← w.account? store address with
  | none => return 0
  | some a => w.accountSlot store a key

/-- Up to `limit` slots at an address whose hash is not below `start`, by hash. -/
def slotsFrom (w : World) (store : Store) (address : Address) (start : Hash) (limit : Nat) :
    Except StateError (List (Hash × Word)) := do
  match ← w.account? store address with
  | none => return []
  | some a =>
    let entries ← ((w.storageOf a).entriesFrom store.nodes start limit).mapError .trie
    entries.mapM fun (h, b) => do return (h, ← (Rlp.word b).mapError .decoder)

/-- The list of all accounts, which the hashes of addresses do not give. -/
def allAccounts (_ : World) : Except StateError (List Account) :=
  .error .accountEnumeration

/-- The writes that persist the changes: code, storage by address, accounts. -/
def writes (w : World) : List StoreWrite :=
  w.codes.toList.flatMap (fun (_, code) => Store.codeWrites code) ++
    w.storages.toList.flatMap (fun (_, trie) => trie.writes.flatMap Store.nodeWrites) ++
    w.accounts.writes.flatMap Store.nodeWrites

/-- The same world with nothing left to persist. -/
def settled (w : World) : World := ⟨w.accounts.collapse, ∅, ∅⟩

/-- Writes the changes to the store in one commit and gives the world that has
none.  If the commit fails, the world to go on with is the one before. -/
def persist (w : World) : EStateM StoreError Store World := do
  Store.commit w.writes
  return w.settled

end World
end Ethereum
