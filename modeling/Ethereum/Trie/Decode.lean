/-
# Reading trie nodes

A node is read from its encoding with the nodes that are embedded in it; children
referred to by hash stay hashes.  What is read is never a bare hash, and a path
that extends to a child is never empty, so following what was read uses up the
key (`Node.Advances`).
-/

import Ethereum.Trie.Node

namespace Ethereum
namespace Node

/-- A child that is not a list: nothing, or a hash. -/
def decodeReference (b : Bytes) : Except DecodeError Node := do
  let d ← Rlp.payload b
  match d.length with
  | 0 => return null
  | 32 => return hash (Word.ofBytes d)
  | _ => throw .invalidLength

/-- Whether `b` is the empty string, or why that cannot be told. -/
def isEmptyString (b : Bytes) : Except DecodeError Bool :=
  if Rlp.isString b then List.isEmpty <$> Rlp.payload b else .ok false

theorem length_run {b x : Bytes} (h : x ∈ Rlp.run b) : x.length ≤ b.length := by
  fun_induction Rlp.run b with
  | case1 b y hy ih =>
    rcases List.mem_cons.mp h with rfl | h
    · exact (Rlp.length_item hy).2
    · have := ih h
      simp at this
      omega
  | case2 => simp at h

theorem span_start_pos {b : Bytes} {s : Rlp.Span} (hl : Rlp.isList b) (h : Rlp.span b = .ok s) :
    0 < s.start ∧ s.stop ≤ b.length := by
  unfold Rlp.span at h
  cases ha : Rlp.announced b with
  | error e => simp [ha, bind, Except.bind] at h
  | ok t =>
    simp only [ha, bind, Except.bind] at h
    split at h
    · rename_i hle
      cases h
      refine ⟨?_, hle⟩
      unfold Rlp.announced at ha
      split at ha
      · contradiction
      · rename_i first rest
        have hf : 0xc0 ≤ first.toNat := by simpa [Rlp.isList, UInt8.le_iff_toNat_le] using hl
        simp only at ha
        repeat' split at ha
        · omega
        · cases ha; simp
        · exact Rlp.start_pos_of_longSpan ha
        · cases ha; simp
        · exact Rlp.start_pos_of_longSpan ha
    · contradiction

/-- The items of a list are shorter than the list. -/
theorem length_of_mem_items {b x : Bytes} {xs : List Bytes} (h : Rlp.items b = .ok xs)
    (hx : x ∈ xs) : x.length < b.length := by
  unfold Rlp.items at h
  split at h
  · rename_i hl
    split at h
    · cases h
      simp at hx
    · rename_i s hs
      have hp := span_start_pos hl hs
      simp only [Rlp.Span.stop] at hp
      split at h
      · cases h
        simp at hx
      · rename_i y hy
        cases h
        have hy := Rlp.length_item hy
        simp at hy
        rcases List.mem_cons.mp hx with rfl | hx
        · omega
        · have := length_run hx
          simp at this
          omega
  · contradiction

/-- The extension of a path to a child, both of which have to be there. -/
def extend (path : Path) (child : Node) : Except DecodeError Node :=
  if path = [] ∨ child.isNull then .error .degenerateExtension else .ok (extension path child)

/-- The node that `b` encodes. -/
def decode (b : Bytes) : Except DecodeError Node := do
  if ← isEmptyString b then return null
  match h : Rlp.items b with
  | .error e => throw e
  | .ok [path, target] =>
    let (path, isLeaf) ← HexPrefix.decode (← Rlp.payload path)
    if isLeaf then return leaf path (← Rlp.payload target)
    let child ← if Rlp.isList target then decode target else decodeReference target
    extend path child
  | .ok xs =>
    if hlen : xs.length = 17 then
      let children ← (xs.take 16).attach.mapM fun ⟨x, hx⟩ =>
        if Rlp.isList x then decode x else decodeReference x
      let value ← Rlp.payload (xs[16])
      return branchOf (fun i => children.getD i.val null)
        (if value.isEmpty then none else some value)
    else throw .incorrectListLength
termination_by b.length
decreasing_by
  · exact length_of_mem_items h (by simp)
  · exact length_of_mem_items h (List.mem_of_mem_take hx)

/-- Following the node uses up the key: it is no placeholder, and a path that it
extends is not empty. -/
def Advances : Node → Prop
  | hash _ => False
  | extension path _ => path ≠ []
  | _ => True

theorem advances_of_extend {path : Path} {child n : Node} (h : extend path child = .ok n) :
    n.Advances := by
  unfold extend at h
  split at h
  · contradiction
  · cases h
    simp_all [Advances]

theorem advances_of_decode {b : Bytes} {n : Node} (h : decode b = .ok n) : n.Advances := by
  unfold decode at h
  simp only [bind, Except.bind, pure, Except.pure, throw, throwThe, MonadExceptOf.throw] at h
  repeat' split at h
  all_goals try contradiction
  · cases h
    trivial
  · cases h
    trivial
  · exact advances_of_extend h
  · exact advances_of_extend h
  · cases h
    trivial
  · cases h
    trivial

end Node
end Ethereum
