/-
# Trie nodes

A node of a Merkle-Patricia trie is empty, ends a path with a value, extends a
path to one child, or branches into 16 children.  A node that lies in storage
and was not read yet stands in the tree as its hash.

A node is written as a list of two or of 17 items.  Children are embedded if
their own encoding has fewer than 32 bytes and referred to by hash otherwise.
-/

import Ethereum.Crypto.Keccak
import Ethereum.Rlp.Encode
import Ethereum.Trie.HexPrefix

namespace Ethereum

/-- A node of a trie. -/
inductive Node where
  | null
  | leaf (path : Path) (value : Bytes)
  | extension (path : Path) (child : Node)
  | branch (children : Nibble → Node) (value : Option Bytes)
  /-- A node that was not read from storage yet. -/
  | hash (h : Hash)
deriving Inhabited

/-- How a node is referred to from its parent. -/
inductive Reference where
  | inline (encoded : Bytes)
  | hashed (h : Hash)
deriving DecidableEq, Repr

/-- A reference as an item of the parent. -/
def Reference.encode : Reference → Bytes
  | inline encoded => encoded
  | hashed h => Rlp.string (Hash.toBytes h)

namespace Node

/-- Whether there is nothing here. -/
def isNull : Node → Bool
  | null => true
  | _ => false

/-- The children that a table holds. -/
@[noinline] def childrenOf (table : Vector Node 16) (i : Nibble) : Node := table[i]

/-- A branch whose children are computed once and held in a table. -/
def branchOf (children : Nibble → Node) (value : Option Bytes) : Node :=
  branch (childrenOf (Vector.ofFn children)) value

@[simp] theorem childrenOf_ofFn (children : Nibble → Node) :
    childrenOf (Vector.ofFn children) = children := by
  funext i
  simp [childrenOf]

@[simp] theorem branchOf_eq (children : Nibble → Node) (value : Option Bytes) :
    branchOf children value = branch children value := by
  simp [branchOf]

/-- The children with the one at `i` replaced. -/
def setChild (children : Nibble → Node) (i : Nibble) (child : Node) : Nibble → Node :=
  fun j => if j = i then child else children j

/-- The reference to a node, given its encoding. -/
def referenceOf (node : Node) (encoded : Bytes) : Reference :=
  match node with
  | hash h => .hashed h
  | _ => if encoded.length < 32 then .inline encoded else .hashed (keccak encoded)

/-- The encoding of a node. -/
def encode : Node → Bytes
  | null => Rlp.string []
  | leaf path value => Rlp.list [Rlp.string (HexPrefix.encode path true), Rlp.string value]
  | extension path child =>
    Rlp.list [Rlp.string (HexPrefix.encode path false), (referenceOf child child.encode).encode]
  | branch children value =>
    Rlp.list ((List.ofFn fun i => (referenceOf (children i) (children i).encode).encode) ++
      [Rlp.string (value.getD [])])
  | hash h => Rlp.string (Hash.toBytes h)

/-- How a parent refers to a node. -/
def reference (node : Node) : Reference :=
  referenceOf node node.encode

/-- The hash of a node.  Short nodes have one too, which a root needs. -/
def digest : Node → Hash
  | hash h => h
  | node => keccak node.encode

/-- The hash of the empty node, which is the root of a trie without entries. -/
def emptyHash : Hash := 0x56e81f171bcc55a6ff8345e692c0f86e5b48e01b996cadc001622fb5e363b421

end Node
end Ethereum
