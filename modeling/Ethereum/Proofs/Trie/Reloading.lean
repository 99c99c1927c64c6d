/-
# A loaded node has the hash that it was stored under

A parent in storage keeps a child in place where the child is a hash already or is
written with fewer than 32 bytes, and the hash of the child otherwise
(`Node.outlined`).  What is read from the encoding of a node is the node with its
children outlined and nothing else changed, subtrees that are written in place
included (`Node.Readable.reload`).  Outlining a child does not change how its parent
refers to it (`Node.reference_embed`), so what was read is written with the same
bytes again, and hashing a node that was loaded gives the hash it lay under.

Nothing is assumed about the hash function, and nothing about what lies behind the
hashes that the node holds.
-/

import Mathlib
import Ethereum.Proofs.Trie.Storing

namespace Ethereum
namespace Node

/-- The node with its children put through a function. -/
def mapChildren (f : Node → Node) : Node → Node
  | extension p child => extension p (f child)
  | branch children v => branch (fun i => f (children i)) v
  | n => n

/-- What is kept of a child in storage: a hash and a node that is written with fewer
than 32 bytes as they are, the hash of any other node. -/
def outlined : Node → Node
  | hash h => hash h
  | child => if 32 ≤ child.encode.length then hash (keccak child.encode) else child

theorem outlined_eq_ite {n : Node} (hn : ∀ h, n ≠ hash h) :
    n.outlined = if 32 ≤ n.encode.length then hash (keccak n.encode) else n := by
  cases n with
  | hash h => exact absurd rfl (hn h)
  | _ => rfl

theorem embed_eq_outlined (n : Node) : n.embed = n.outlined := by
  rcases n.hash_or_ne_hash with ⟨h, rfl⟩ | hn
  · rfl
  · rw [outlined_eq_ite hn]
    split
    · exact embed_of_long hn (by omega)
    · exact embed_of_short hn (by omega)

/-- A node as storage holds it has its children outlined. -/
theorem shallow_eq_mapChildren (n : Node) : n.shallow = n.mapChildren outlined := by
  cases n with
  | extension p child => rw [shallow, mapChildren, embed_eq_outlined]
  | branch children v => simp only [shallow, mapChildren, embed_eq_outlined]
  | _ => rfl

/-- A parent refers to a child and to what storage keeps of it alike. -/
theorem reference_embed (n : Node) : n.embed.reference = n.reference := by
  unfold embed
  split
  · rfl
  · rename_i h hn
    rw [hn]
    rfl

theorem encode_shallow (n : Node) : n.shallow.encode = n.encode := by
  cases n with
  | extension p child => rw [shallow, encode_extension, encode_extension, reference_embed]
  | branch children v => simp only [shallow, encode_branch, reference_embed]
  | _ => rfl

theorem shallow_ne_hash {n : Node} (hn : ∀ h, n ≠ hash h) (h : Hash) : n.shallow ≠ hash h := by
  cases n with
  | hash k => exact absurd rfl (hn k)
  | _ => exact nofun

/-- **What is read from the encoding of a node is the node with its children
outlined.**  It is written with the same bytes again, and a source that has these
bytes under the hash of the node loads a node with this hash.

The node is any but a bare hash: it may hold hashes, and no extension in it lacks
steps or a child, nor is the value of a branch empty (`Readable`).  A header has room
for eight bytes of length, more than byte strings in memory need. -/
theorem Readable.reload {n : Node} (hn : n.Readable) (hh : ∀ h, n ≠ hash h)
    (hlen : n.encode.length < 2 ^ 64) :
    decode n.encode = .ok (n.mapChildren outlined) ∧
      (n.mapChildren outlined).encode = n.encode ∧
      ∀ source : NodeSource, source.read n.digest = some n.encode →
        ∃ m, source.load n.digest = .ok m ∧ m.digest = n.digest := by
  have hdecode := hn.decode_encode hh hlen
  have hdigest : n.shallow.digest = n.digest := by
    rw [digest_eq hh, digest_eq (shallow_ne_hash hh), encode_shallow]
  rw [← shallow_eq_mapChildren]
  exact ⟨hdecode, encode_shallow n, fun source hread =>
    ⟨n.shallow, NodeSource.load_of_read hread hdecode, hdigest⟩⟩

/-- The children of a branch: a short leaf, a leaf that is too long to be written in
place, and a node that was not loaded. -/
def mixedChildren (i : Nibble) : Node :=
  if i = 3 then leaf [1, 2] [0x73, 0x68, 0x6f, 0x72, 0x74]
  else if i = 7 then leaf [4] (List.replicate 48 0x55)
  else if i = 9 then hash 5
  else null

theorem readable_mixed : (branch mixedChildren (some [0x76])).Readable := by
  refine ⟨by decide, fun i => ?_⟩
  unfold mixedChildren
  split_ifs <;> trivial

theorem length_encode_mixed : (branch mixedChildren (some [0x76])).encode.length < 2 ^ 64 := by
  rw [encode_branch]
  refine Rlp.length_list_lt ?_
  rw [List.flatten_append, List.length_append, List.flatten_singleton]
  have hchildren := length_flatten_references_le mixedChildren
  have hvalue : (Rlp.string ((some [0x76] : Option Bytes).getD [])).length = 1 := by decide
  omega

/-- The long leaf is read as its hash, and the other children in place. -/
theorem mixed_reload :
    (branch mixedChildren (some [0x76])).Readable ∧
      (∀ h, branch mixedChildren (some [0x76]) ≠ hash h) ∧
      (branch mixedChildren (some [0x76])).encode.length < 2 ^ 64 ∧
      decode (branch mixedChildren (some [0x76])).encode = .ok (branch (fun i =>
        if i = 7 then hash (keccak (leaf [4] (List.replicate 48 0x55)).encode)
        else mixedChildren i) (some [0x76])) := by
  have hreload := (readable_mixed.reload nofun length_encode_mixed).1
  refine ⟨readable_mixed, nofun, length_encode_mixed, hreload.trans ?_⟩
  rw [mapChildren]
  congr 2
  funext i
  by_cases h7 : i = 7
  · subst h7
    show outlined (leaf [4] (List.replicate 48 0x55)) = _
    rw [outlined, if_pos (by decide), if_pos rfl]
    exact nofun
  · rw [if_neg h7, mixedChildren]
    split_ifs
    · rw [outlined, if_neg (by decide)]
      exact nofun
    · rfl
    · rw [outlined, if_neg (by decide)]
      exact nofun

end Node
end Ethereum
