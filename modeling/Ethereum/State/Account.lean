/-
# Accounts

An account has a nonce, a balance, the root of its storage and the hash of its
code.  It is written as a list of these four.
-/

import Ethereum.Rlp.Encode
import Ethereum.State.Store

namespace Ethereum

/-- The key under which the trie of accounts holds an account. -/
def Address.hash (a : Address) : Hash := keccak (Address.toBytes a)

/-- An account as the trie of accounts holds it. -/
structure Account where
  address : Address
  nonce : Nat
  balance : Word
  storageRoot : Hash
  codeHash : Hash
deriving DecidableEq, Repr

namespace Account

/-- An account without code and storage. -/
def new (address : Address) (nonce : Nat) (balance : Word) : Account :=
  ⟨address, nonce, balance, Node.emptyHash, Store.emptyCodeHash⟩

/-- Whether there is neither code nor nonce nor balance. -/
def isEmpty (a : Account) : Bool :=
  a.nonce = 0 && a.balance = 0 && a.codeHash = Store.emptyCodeHash

/-- Whether there is code. -/
def hasCode (a : Account) : Bool := a.codeHash ≠ Store.emptyCodeHash

/-- The encoding of an account. -/
def encode (a : Account) : Bytes :=
  Rlp.list [Rlp.number a.nonce, Rlp.number a.balance.toNat,
    Rlp.string (Hash.toBytes a.storageRoot), Rlp.string (Hash.toBytes a.codeHash)]

/-- The account at an address that `b` encodes. -/
def decode (address : Address) (b : Bytes) : Except DecodeError Account := do
  match ← Rlp.items b with
  | [nonce, balance, storageRoot, codeHash] =>
    return {
      address
      nonce := ← Rlp.quantity nonce
      balance := ← Rlp.word balance
      storageRoot := ← Rlp.hash storageRoot
      codeHash := ← Rlp.hash codeHash }
  | _ => throw .incorrectListLength

end Account
end Ethereum
