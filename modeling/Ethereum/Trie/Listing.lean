/-
# Listing entries

The entries with a key of 32 bytes, in ascending order, from a given key on and
up to a limit.  The walk leaves out subtrees that lie before the start and loads
the placeholders that it meets.

Each load leads at least one nibble further down.  Below 64 nibbles there is
nothing to list or to leave out any more, and placeholders that lead in a circle
there are found out after as many loads as the source has nodes.
-/

import Ethereum.Trie.Source

namespace Ethereum
namespace Node

/-- The entries listed so far, with what is asked for. -/
structure Listing where
  start : Path
  limit : Nat
  entries : Array (Hash × Bytes)

namespace Listing

/-- Whether the limit is reached. -/
def isFull (l : Listing) : Bool := l.limit ≤ l.entries.size

/-- Whether all paths that start with `path` lie before the first one asked
for. -/
def isBefore (l : Listing) (path : Path) : Bool :=
  let n := min path.length l.start.length
  path.take n < l.start.take n

/-- Adds the value at the end of `path`, if its key is one to list. -/
def add (l : Listing) (path : Path) (value : Bytes) : Listing :=
  if path.length = 64 ∧ ¬ path < l.start then
    { l with entries := l.entries.push (Word.ofBytes (Path.toBytes path), value) }
  else l

end Listing

/-- Adds the entries below a node that stands at the end of `path`; `follow` does
so for placeholders. -/
def walk (follow : Hash → Path → Listing → Except TrieError Listing) :
    Node → Path → Listing → Except TrieError Listing
  | node, path, l =>
    if l.isFull || l.isBefore path then .ok l
    else match node with
    | null => .ok l
    | hash h => follow h path l
    | leaf p value => .ok (l.add (path ++ p) value)
    | extension p child => child.walk follow (path ++ p) l
    | branch children value =>
      let l := match value with
        | some v => l.add path v
        | none => l
      (List.finRange 16).foldlM (fun l i => (children i).walk follow (path ++ [i]) l) l

/-- Adds the entries below a placeholder, with at most `fuel` loads on any way
down. -/
def walkHash (source : NodeSource) : Nat → Hash → Path → Listing → Except TrieError Listing
  | 0, h, _, _ => .error (.missingNode h)
  | fuel + 1, h, path, l => do
    let node ← source.load h
    node.walk (walkHash source fuel) path l

/-- A bound on the loads on any way down that does not lead in a circle below 64
nibbles. -/
def maxLoads (source : NodeSource) : Nat := 65 + source.size + 1

/-- Up to `limit` entries with a 32-byte key not below `start`, in ascending
order. -/
def entriesFrom (source : NodeSource) (node : Node) (start : Hash) (limit : Nat) :
    Except TrieError (List (Hash × Bytes)) := do
  let asked : Listing := ⟨Path.ofBytes (Hash.toBytes start), limit, #[]⟩
  let l ← node.walk (walkHash source (maxLoads source)) [] asked
  return l.entries.toList

end Node
end Ethereum
