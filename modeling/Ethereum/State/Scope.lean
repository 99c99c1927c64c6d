/-
# Scopes

A scope gathers changes to accounts: overlays of those that it touched and the
addresses of those that it deleted.  A scope is merged into the one around it, or
in the end applied to the world.
-/

import Ethereum.State.Overlay
import Std.Data.ExtTreeSet

namespace Ethereum

/-- Changes to accounts. -/
structure Scope where
  updated : Std.ExtTreeMap Address Overlay
  deleted : Std.ExtTreeSet Address

namespace Scope

/-- No changes. -/
def empty : Scope := ⟨∅, ∅⟩

/-- What the scope says about an address: nothing, or that the account is gone,
or its overlay. -/
def lookup (s : Scope) (address : Address) : Option (Option Overlay) :=
  if s.deleted.contains address then some none else s.updated[address]?.map some

/-- The scope with an overlay. -/
def put (s : Scope) (o : Overlay) : Scope where
  updated := s.updated.insert o.address o
  deleted := s.deleted.erase o.address

/-- The scope with an account deleted. -/
def delete (s : Scope) (address : Address) : Scope where
  updated := s.updated.erase address
  deleted := s.deleted.insert address

/-- The changes of `s` followed by those of `child`. -/
def merge (s child : Scope) : Scope :=
  child.updated.foldl (fun s _ o => s.put o) (child.deleted.foldl delete s)

/-- The addresses of the accounts that were touched and not deleted since. -/
def touched (s : Scope) : List Address := s.updated.keys

end Scope

namespace World

/-- A change of the trie of accounts, which empties the trie if it fails. -/
def updateAccounts (change : Trie → Except TrieError Trie) : EStateM StateError World Unit :=
  fun w =>
    match Trie.update change w.accounts with
    | .ok _ t => .ok () { w with accounts := t }
    | .error e t => .error (.trie e) { w with accounts := t }

/-- Deletes an account with its storage. -/
def deleteAccount (store : Store) (address : Address) : EStateM StateError World Unit := do
  updateAccounts fun t => t.erase store.nodes (Hash.toBytes address.hash)
  modify fun w => { w with storages := w.storages.erase address }

/-- Writes slots into a storage trie; zero removes a slot. -/
def writeSlots (store : Store) (slots : List (Word × Word)) : EStateM TrieError Trie Unit :=
  slots.forM fun (key, value) => Trie.update fun t =>
    let slot := Hash.toBytes (slotHash key)
    if value = 0 then t.erase store.nodes slot
    else t.insert store.nodes slot (Rlp.number value.toNat)

/-- Writes the slots of an overlay over storage with the given root, and gives
the root of what comes out. -/
def applySlots (store : Store) (o : Overlay) (root : Hash) : EStateM StateError World Hash :=
  fun w =>
    let trie := w.storages.getD o.address (.ofRoot root)
    match writeSlots store o.slots.toList trie with
    | .ok _ t => .ok t.rootHash { w with storages := w.storages.insert o.address t }
    | .error e t => .error (.trie e) { w with storages := w.storages.insert o.address t }

/-- Writes an overlay into the world. -/
def applyOverlay (store : Store) (o : Overlay) : EStateM StateError World Unit := do
  let root ← match o.visibleBase with
    | some a => pure a.storageRoot
    | none => do
      modify fun w => { w with storages := w.storages.erase o.address }
      pure Node.emptyHash
  let storageRoot ← if o.slots.isEmpty then pure root else applySlots store o root
  if let some code := o.newCode then
    unless code.isEmpty do
      modify fun w => { w with codes := w.codes.insert o.codeHash code }
  let account : Account := {
    address := o.address, nonce := o.nonce, balance := o.balance, storageRoot,
    codeHash := o.codeHash }
  updateAccounts fun t => t.insert store.nodes (Hash.toBytes o.address.hash) account.encode

/-- Writes a scope into the world.  Deletions come first and win over overlays of
the same address. -/
def applyScope (store : Store) (s : Scope) : EStateM StateError World Unit := do
  s.deleted.toList.forM (deleteAccount store)
  s.updated.toList.forM fun (address, o) =>
    if s.deleted.contains address then pure () else applyOverlay store o

end World
end Ethereum
