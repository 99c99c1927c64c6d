/-
# The store

A key-value store holds trie nodes by their hash and code by its hash.  Writes
are gathered and committed together, and a commit that fails writes nothing.  The
node of the empty trie and the empty code are always there and never written.

A store may fail: `refusesReads` makes every read fail while it is set, and the
next `failingCommits` commits fail.
-/

import Ethereum.State.Error
import Std.Data.ExtTreeMap

namespace Ethereum

/-- A key-value store. -/
structure Store where
  entries : Std.ExtTreeMap Bytes Bytes
  failingCommits : Nat
  refusesReads : Bool

/-- A write to a store. -/
inductive StoreWrite where
  | put (key value : Bytes)
  | remove (key : Bytes)
deriving DecidableEq, Repr

namespace Store

/-- The store without entries. -/
def empty : Store := ⟨∅, 0, false⟩

/-- The number of entries. -/
def size (s : Store) : Nat := s.entries.size

/-- Whether there is no entry. -/
def isEmpty (s : Store) : Bool := s.entries.isEmpty

/-- Whether there is an entry under a key. -/
def contains (s : Store) (key : Bytes) : Bool := s.entries.contains key

/-- The value under a key. -/
def read (s : Store) (key : Bytes) : Except StoreError (Option Bytes) :=
  if s.refusesReads then .error .readRefused else .ok s.entries[key]?

/-- The store after a write. -/
def write (s : Store) : StoreWrite → Store
  | .put key value => { s with entries := s.entries.insert key value }
  | .remove key => { s with entries := s.entries.erase key }

/-- Commits writes: all of them, in order, or none. -/
def commit (writes : List StoreWrite) : EStateM StoreError Store Unit := fun s =>
  if 0 < s.failingCommits then .error .diskFull { s with failingCommits := s.failingCommits - 1 }
  else .ok () (writes.foldl write s)

/-- The hash of the empty code. -/
def emptyCodeHash : Hash := 0xc5d2460186f7233c927e7db2dcc703c0e500b653ca82273b7bfad8045d85a470

/-- The code with a hash. -/
def code (s : Store) (h : Hash) : Except StoreError (Option Bytes) :=
  if h = emptyCodeHash then .ok (some []) else s.read (Hash.toBytes h)

/-- The encoded trie node with a hash. -/
def node (s : Store) (h : Hash) : Except StoreError (Option Bytes) :=
  if h = Node.emptyHash then .ok (some [0x80]) else s.read (Hash.toBytes h)

/-- The store as a source of trie nodes.  A node that cannot be read is missing. -/
def nodes (s : Store) : NodeSource where
  read h := match s.node h with
    | .ok b => b
    | .error _ => none
  size := s.size + 1

/-- The writes that put code under its hash. -/
def codeWrites (code : Bytes) : List StoreWrite :=
  if code.isEmpty then [] else [.put (Hash.toBytes (keccak code)) code]

/-- The writes that put a trie node under its hash. -/
def nodeWrites (node : Hash × Bytes) : List StoreWrite :=
  if node.1 = Node.emptyHash then [] else [.put (Hash.toBytes node.1) node.2]

end Store
end Ethereum
