/-
# Paths packed into bytes

A path packed with its end comes back (`decode_encode`), and a byte string that decodes is
the packing of what it decodes to (`encode_of_decode`): a parity, a leaf and a path have one
flag, a path of even length has one padding, and bytes and pairs of nibbles are the same.
So packing is a bijection onto the byte strings that are accepted (`packs_exactly`), and
what a node hashes to does not depend on how its path was written.
-/

import Mathlib
import Ethereum.Proofs.Trie.Path
import Ethereum.Trie.HexPrefix

namespace Ethereum
namespace HexPrefix

theorem length_encode (path : Path) (isLeaf : Bool) :
    (encode path isLeaf).length = path.length / 2 + 1 := by
  rw [encode, Path.length_toBytes, List.length_cons]
  simp only [beq_iff_eq]
  split
  · omega
  · rw [List.length_cons]
    omega

/-- The nibbles behind an encoded path. -/
theorem ofBytes_encode (path : Path) (isLeaf : Bool) :
    Path.ofBytes (encode path isLeaf) =
      flags isLeaf (path.length % 2 == 1) :: if path.length % 2 = 1 then path else 0 :: path := by
  simp only [encode, beq_iff_eq]
  refine Path.ofBytes_toBytes ?_
  rw [List.length_cons]
  split
  · omega
  · rw [List.length_cons]
    omega

/-- **An encoded path comes back**, with its end. -/
theorem decode_encode (path : Path) (isLeaf : Bool) :
    decode (encode path isLeaf) = .ok (path, isLeaf) := by
  rw [decode, ofBytes_encode]
  by_cases hodd : path.length % 2 = 1
  · rcases path with _ | ⟨i, path⟩
    · simp at hodd
    · rw [if_pos hodd, beq_iff_eq.mpr hodd]
      cases isLeaf <;> rfl
  · rw [if_neg hodd, beq_eq_false_iff_ne.mpr hodd]
    cases isLeaf <;> rfl

/-- A nibble of flags says no more than the end of a path and its parity. -/
theorem flags_eq {flag : Nibble} (h : ¬ 3 < flag) : flags (2 ≤ flag) (flag.val % 2 == 1) = flag := by
  decide +revert

/-- **What decodes is an encoding**: that of what it decodes to. -/
theorem encode_of_decode {b : Bytes} {path : Path} {isLeaf : Bool}
    (h : decode b = .ok (path, isLeaf)) : encode path isLeaf = b := by
  have hlength := Path.length_ofBytes b
  have hbytes := Path.toBytes_ofBytes b
  unfold decode at h
  split at h
  · rename_i flag first rest hb
    rw [hb] at hlength hbytes
    simp only [List.length_cons] at hlength
    -- an odd path has its first step beside the flag; before an even one stands a zero
    split at h
    · contradiction
    rename_i hflag
    have hflags := flags_eq hflag
    simp only at h
    split at h
    · rename_i hodd
      cases h
      have hparity : (first :: rest).length % 2 = 1 := by
        rw [List.length_cons]
        omega
      rw [beq_iff_eq.mpr hodd] at hflags
      rw [encode, beq_iff_eq.mpr hparity, hflags]
      exact hbytes
    · rename_i heven
      split at h
      · contradiction
      rename_i hfirst
      cases h
      have hparity : ¬ path.length % 2 = 1 := by omega
      rw [beq_eq_false_iff_ne.mpr heven] at hflags
      rw [encode, beq_eq_false_iff_ne.mpr hparity, hflags, ← hbytes, not_not.mp hfirst]
      rfl
  · contradiction

/-- **Packing is a bijection onto what is accepted.**  Paths of every length come back with
their ends, and a byte string of any length decodes to a path just if it is the encoding of
that path; so every path has one encoding, and all else is refused. -/
theorem packs_exactly :
    (∀ path isLeaf, decode (encode path isLeaf) = .ok (path, isLeaf)) ∧
    (∀ b path isLeaf, decode b = .ok (path, isLeaf) ↔
      path.all (·.val < 16) ∧ encode path isLeaf = b) ∧
    ∀ b, (∃ r, decode b = .ok r) ↔ ∃ path isLeaf, encode path isLeaf = b := by
  refine ⟨decode_encode, fun b path isLeaf => ?_, fun b => ?_⟩
  · constructor
    · intro h
      exact ⟨List.all_eq_true.mpr fun n _ => decide_eq_true n.isLt, encode_of_decode h⟩
    · rintro ⟨-, rfl⟩
      exact decode_encode path isLeaf
  · constructor
    · rintro ⟨⟨path, isLeaf⟩, h⟩
      exact ⟨path, isLeaf, encode_of_decode h⟩
    · rintro ⟨path, isLeaf, rfl⟩
      exact ⟨_, decode_encode path isLeaf⟩

end HexPrefix
end Ethereum
