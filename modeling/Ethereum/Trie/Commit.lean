/-
# Nodes to store

Storing a trie writes every node that is referred to by hash, children before
their parents, and last the root, whatever its size.
-/

import Ethereum.Trie.Node

namespace Ethereum
namespace Node

/-- The nodes that are written for the subtree below `node`, each with its hash;
a root is always among them. -/
def writes (isRoot : Bool) : Node → List (Hash × Bytes)
  | null | hash _ => []
  | leaf path value => own (leaf path value).encode
  | extension path child => writes false child ++ own (extension path child).encode
  | branch children value =>
    (List.ofFn fun i => writes false (children i)).flatten ++ own (branch children value).encode
where
  /-- The node itself. -/
  own (encoded : Bytes) : List (Hash × Bytes) :=
    if isRoot || 32 ≤ encoded.length then [(keccak encoded, encoded)] else []

end Node
end Ethereum
