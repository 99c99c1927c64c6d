/-
# The journal

A journal changes the world in nested scopes.  Reads go through the scopes from
the innermost to the world; changes go into the innermost scope, and show outside
only when it is committed.  Committing the outermost scope changes the world, and
reverting a scope drops its changes.
-/

import Ethereum.State.Scope

namespace Ethereum

/-- Nested changes to a world. -/
structure Journal where
  world : World
  /-- The scopes around the innermost, from the inside out. -/
  parents : List Scope
  /-- The innermost scope. -/
  scope : Scope

namespace Journal

/-- A world with one scope that holds no changes. -/
def ofWorld (w : World) : Journal := ⟨w, [], .empty⟩

/-- The number of scopes inside the outermost. -/
def depth (j : Journal) : Nat := j.parents.length

/-- The account at an address as the innermost scope sees it. -/
def find? (j : Journal) (store : Store) (address : Address) :
    Except StateError (Option Overlay) := do
  match (j.scope :: j.parents).findSome? (·.lookup address) with
  | some found => return found
  | none => return (← j.world.account? store address).map .ofAccount

/-- The account at an address, or a new one. -/
def findOrFresh (j : Journal) (store : Store) (address : Address) : Except StateError Overlay := do
  return (← j.find? store address).getD (.fresh address 0 0)

/-- The journal with an overlay in its innermost scope. -/
def put (j : Journal) (o : Overlay) : Journal := { j with scope := j.scope.put o }

/-! ## Reads -/

/-- Whether there is an account. -/
def exists? (j : Journal) (store : Store) (address : Address) : Except StateError Bool := do
  return (← j.find? store address).isSome

/-- Whether there is an account and it is empty. -/
def isEmpty (j : Journal) (store : Store) (address : Address) : Except StateError Bool := do
  return ((← j.find? store address).map Overlay.isEmpty).getD false

/-- The balance; zero if there is no account. -/
def balance (j : Journal) (store : Store) (address : Address) : Except StateError Word := do
  return ((← j.find? store address).map Overlay.balance).getD 0

/-- The nonce; zero if there is no account. -/
def nonce (j : Journal) (store : Store) (address : Address) : Except StateError Nat := do
  return ((← j.find? store address).map Overlay.nonce).getD 0

/-- The code; empty if there is no account. -/
def code (j : Journal) (store : Store) (address : Address) : Except StateError Bytes := do
  match ← j.find? store address with
  | some o => o.code j.world store
  | none => return []

/-- The hash of the code; zero if there is no account. -/
def codeHash (j : Journal) (store : Store) (address : Address) : Except StateError Hash := do
  return ((← j.find? store address).map Overlay.codeHash).getD 0

/-- The value of a slot; zero if there is no account. -/
def slot (j : Journal) (store : Store) (address : Address) (key : Word) :
    Except StateError Word := do
  match ← j.find? store address with
  | some o => o.slot j.world store key
  | none => return 0

/-! ## Changes -/

/-- A change of the journal.  One that fails keeps what it changed before. -/
abbrev Change := EStateM StateError Journal

/-- A read as a change that changes nothing. -/
def reading {α : Type} (read : Journal → Except StateError α) : Change α := fun j =>
  match read j with
  | .ok a => .ok a j
  | .error e => .error e j

/-- Changes the account at an address, which is created if there is none; gives
the account before the change. -/
def update (store : Store) (address : Address) (change : Overlay → Overlay) : Change Overlay := do
  let o ← reading (·.findOrFresh store address)
  modify (·.put (change o))
  return o

/-- Changes the account at an address, if there is one; gives the account before
the change. -/
def update? (store : Store) (address : Address) (change : Overlay → Overlay) :
    Change (Option Overlay) := do
  match ← reading (·.find? store address) with
  | some o =>
    modify (·.put (change o))
    return some o
  | none => return none

/-- Touches the account at an address, which is created if there is none. -/
def getOrCreate (store : Store) (address : Address) : Change Unit := do
  let _ ← update store address id

/-- Puts a new account in the place of whatever is at an address. -/
def createAccount (address : Address) (nonce : Nat) (balance : Word) : Change Unit :=
  modify (·.put (.fresh address nonce balance))

/-- Writes a slot. -/
def setSlot (store : Store) (address : Address) (key value : Word) : Change Unit := do
  let _ ← update store address (.setSlot key value)

/-- Raises a balance; gives the balance before. -/
def incrementBalance (store : Store) (address : Address) (amount : Word) : Change Word := do
  return (← update store address (.incrementBalance amount)).balance

/-- Lowers a balance; gives the balance before. -/
def decrementBalance (store : Store) (address : Address) (amount : Word) : Change Word := do
  return (← update store address (.decrementBalance amount)).balance

/-- Raises a nonce by one; gives the nonce before. -/
def incrementNonce (store : Store) (address : Address) : Change Nat := do
  return (← update store address .incrementNonce).nonce

/-- Sets the code. -/
def setCode (store : Store) (address : Address) (code : Bytes) : Change Unit := do
  let _ ← update store address (.setCode code)

/-- Deletes an account. -/
def deleteAccount (address : Address) : Change Unit :=
  modify fun j => { j with scope := j.scope.delete address }

/-- Moves value from one account to another, which is created if there is none.
To the same account nothing is moved. -/
def transfer (store : Store) (source target : Address) (value : Word) : Change Unit := do
  getOrCreate store target
  unless source = target do
    let _ ← decrementBalance store source value
    let _ ← incrementBalance store target value

/-! ## Scopes -/

/-- The addresses of the accounts touched in the innermost scope. -/
def touched (j : Journal) : List Address := j.scope.touched

/-- Opens a scope. -/
def enter (j : Journal) : Journal := { j with parents := j.scope :: j.parents, scope := .empty }

/-- Drops the innermost scope. -/
def revert (j : Journal) : Journal :=
  match j.parents with
  | [] => { j with scope := .empty }
  | s :: rest => { j with scope := s, parents := rest }

/-- Merges the innermost scope into the one around it; the outermost scope is
written into the world and starts again without changes. -/
def commit (store : Store) : Change Unit := fun j =>
  match j.parents with
  | s :: rest => .ok () { j with scope := s.merge j.scope, parents := rest }
  | [] =>
    match World.applyScope store j.scope j.world with
    | .ok _ w => .ok () ⟨w, [], .empty⟩
    | .error e w => .error e ⟨w, [], .empty⟩

end Journal
end Ethereum
