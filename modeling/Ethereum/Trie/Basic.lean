/-
# Tries

A trie maps byte strings to byte strings that are not empty, and its root hash
commits to all of its entries.  It holds in memory what was read or changed since
it was opened; the rest is read from a source when it is needed.  A trie that was
never opened at a hash needs no source.

A change that fails leaves the trie empty.
-/

import Ethereum.Trie.Commit
import Ethereum.Trie.Listing
import Ethereum.Trie.Lookup
import Ethereum.Trie.Update

namespace Ethereum

/-- A Merkle-Patricia trie. -/
structure Trie where
  root : Node
deriving Inhabited

namespace Trie

/-- The trie without entries. -/
def empty : Trie := ⟨.null⟩

/-- The trie with a root hash; nothing of it is read yet. -/
def ofRoot (h : Hash) : Trie :=
  if h = Node.emptyHash then empty else ⟨.hash h⟩

/-- The hash that commits to the entries. -/
def rootHash (t : Trie) : Hash := t.root.digest

/-- The value under a key. -/
def get (t : Trie) (source : NodeSource) (key : Bytes) : Except TrieError (Option Bytes) :=
  t.root.lookup source (Path.ofBytes key)

/-- The trie without a key. -/
def erase (t : Trie) (source : NodeSource) (key : Bytes) : Except TrieError Trie := do
  return ⟨← t.root.remove source (Path.ofBytes key)⟩

/-- The trie with a value under a key; without the key if the value is empty. -/
def insert (t : Trie) (source : NodeSource) (key value : Bytes) : Except TrieError Trie := do
  if value.isEmpty then t.erase source key
  else return ⟨← t.root.insert source (Path.ofBytes key) value⟩

/-- Up to `limit` entries with a 32-byte key not below `start`, in ascending
order. -/
def entriesFrom (t : Trie) (source : NodeSource) (start : Hash) (limit : Nat) :
    Except TrieError (List (Hash × Bytes)) :=
  t.root.entriesFrom source start limit

/-- The nodes to store, with their hashes, in the order of writing. -/
def writes (t : Trie) : List (Hash × Bytes) := t.root.writes true

/-- The trie once its nodes are stored: known by its root hash alone. -/
def collapse (t : Trie) : Trie :=
  if t.root.isNull then t else ⟨.hash t.root.digest⟩

/-- A change of a trie in place, which empties the trie if it fails. -/
def update (change : Trie → Except TrieError Trie) : EStateM TrieError Trie Unit := fun t =>
  match change t with
  | .ok t => .ok () t
  | .error e => .error e empty

end Trie
end Ethereum
