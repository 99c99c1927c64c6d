/-
# Where nodes are read from

A trie reads the nodes that it holds only by hash from a source.  A source is a
function, so nothing is assumed about it: bytes need not match their hash, and
nodes may refer to each other in circles.  Its size bounds how many nodes can
follow each other by hash before one comes back.
-/

import Ethereum.Trie.Decode

namespace Ethereum

/-- A source of encoded nodes, by hash. -/
structure NodeSource where
  /-- The bytes under a hash. -/
  read : Hash → Option Bytes
  /-- A bound on the number of hashes that have bytes. -/
  size : Nat

/-- Why a trie cannot be read. -/
inductive TrieError where
  | missingNode (h : Hash)
  | malformedNode (h : Hash) (cause : DecodeError)
deriving DecidableEq, Repr

namespace NodeSource

/-- The source without nodes. -/
def none : NodeSource := ⟨fun _ => .none, 0⟩

/-- The node under a hash. -/
def load (source : NodeSource) (h : Hash) : Except TrieError Node :=
  match source.read h with
  | .none => .error (.missingNode h)
  | some b =>
    match Node.decode b with
    | .ok n => .ok n
    | .error e => .error (.malformedNode h e)

theorem advances_of_load {source : NodeSource} {h : Hash} {n : Node} (hn : source.load h = .ok n) :
    n.Advances := by
  unfold load at hn
  split at hn
  · contradiction
  · split at hn
    · rename_i hd
      cases hn
      exact Node.advances_of_decode hd
    · contradiction

/-- The node that a placeholder stands for; any other node is itself.  What was
loaded advances. -/
def resolve (source : NodeSource) (node : Node) :
    Except TrieError { n : Node // n = node ∨ n.Advances } :=
  match node with
  | .hash h =>
    match hn : source.load h with
    | .ok n => .ok ⟨n, .inr (advances_of_load hn)⟩
    | .error e => .error e
  | n => .ok ⟨n, .inl rfl⟩

end NodeSource
end Ethereum
