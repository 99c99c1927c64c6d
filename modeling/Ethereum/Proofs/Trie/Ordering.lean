/-
# One order for hashes, bytes and nibbles

Hashes are ordered as numbers, keys as byte strings and places in a trie as paths of
nibbles.  Byte strings of one length are in the order of the numbers that they write
(`Bytes.toNat_lt_toNat_iff`), so hashes are in the order of their bytes
(`Hash.toBytes_lt_iff`), and byte strings are in the order of their paths
(`Path.ofBytes_lt_iff`), since the high nibble of a byte is walked first.

A start that is before another one of the same length stays before it, whatever
follows (`append_lt_append`).
-/

import Mathlib
import Ethereum.Proofs.Rlp.RoundTrip
import Ethereum.Proofs.Trie.Path

namespace Ethereum

/-- What follows does not change which of two starts of one length is first. -/
theorem append_lt_append {α : Type} [LT α] {a b : List α} (hlen : a.length = b.length)
    (h : a < b) (r s : List α) : a ++ r < b ++ s := by
  induction a generalizing b with
  | nil =>
    rw [List.length_eq_zero_iff.mp hlen.symm] at h
    exact absurd h (List.not_lt_nil [])
  | cons x a ih =>
    rcases b with _ | ⟨y, b⟩
    · exact absurd h (List.not_lt_nil _)
    · rw [List.cons_append, List.cons_append, List.cons_lt_cons_iff]
      rcases List.cons_lt_cons_iff.mp h with hxy | ⟨hxy, hab⟩
      · exact .inl hxy
      · exact .inr ⟨hxy, ih (Nat.succ.inj hlen) hab⟩

namespace Bytes

theorem toNat_cons (x : UInt8) (b : Bytes) :
    toNat (x :: b) = x.toNat * 256 ^ b.length + toNat b := by
  induction b using List.reverseRecOn with
  | nil => rw [show x :: [] = [] ++ [x] from rfl, toNat_append]; simp
  | append_singleton b y ih =>
    rw [← List.cons_append, toNat_append, ih, toNat_append, List.length_append,
      List.length_singleton, Nat.pow_succ]
    ring

/-- **Byte strings of one length are in the order of the numbers that they write.** -/
theorem toNat_lt_toNat_iff {a b : Bytes} (hlen : a.length = b.length) :
    toNat a < toNat b ↔ a < b := by
  induction a generalizing b with
  | nil =>
    rw [List.length_eq_zero_iff.mp hlen.symm]
    exact iff_of_false (lt_irrefl _) (List.not_lt_nil [])
  | cons x a ih =>
    rcases b with _ | ⟨y, b⟩
    · simp at hlen
    · have hlen : a.length = b.length := Nat.succ.inj hlen
      have ha := toNat_lt a
      have hb := toNat_lt b
      rw [toNat_cons, toNat_cons, List.cons_lt_cons_iff, ← ih hlen, hlen,
        UInt8.lt_iff_toNat_lt, ← UInt8.toNat_inj]
      rw [hlen] at ha
      rcases lt_trichotomy x.toNat y.toNat with hxy | hxy | hxy
      · have := Nat.mul_le_mul_right (256 ^ b.length) hxy
        rw [Nat.succ_mul] at this
        exact iff_of_true (by omega) (.inl hxy)
      · simp [hxy]
      · have := Nat.mul_le_mul_right (256 ^ b.length) hxy
        rw [Nat.succ_mul] at this
        exact iff_of_false (by omega) (by omega)

end Bytes

/-- **Hashes are in the order of their bytes.** -/
theorem Hash.toBytes_lt_iff (g h : Hash) : Hash.toBytes g < Hash.toBytes h ↔ g < h := by
  have hlen : (Hash.toBytes g).length = (Hash.toBytes h).length := by
    rw [Hash.length_toBytes, Hash.length_toBytes]
  have hnum (w : Hash) : (Hash.toBytes w).toNat = w.toNat := by
    rw [Hash.toBytes, Word.toBytes, Bytes.toNat_ofNatFixed, Nat.mod_eq_of_lt]
    exact w.isLt
  rw [← Bytes.toNat_lt_toNat_iff hlen, hnum, hnum, BitVec.lt_def]

namespace Path

/-- Bytes are in the order of their two nibbles. -/
theorem nibbles_lt_iff (x y : UInt8) :
    x < y ↔ high x < high y ∨ high x = high y ∧ low x < low y := by
  have hx := x.toNat_lt
  have hy := y.toNat_lt
  rw [UInt8.lt_iff_toNat_lt, Fin.lt_def, Fin.lt_def, Fin.ext_iff]
  simp only [high, low, Fin.ofNat]
  omega

/-- **Byte strings are in the order of their paths.** -/
theorem ofBytes_lt_iff (a b : Bytes) : ofBytes a < ofBytes b ↔ a < b := by
  induction a generalizing b with
  | nil =>
    rcases b with _ | ⟨y, b⟩
    · exact iff_of_false (List.not_lt_nil _) (List.not_lt_nil _)
    · exact iff_of_true (List.nil_lt_cons _ _) (List.nil_lt_cons _ _)
  | cons x a ih =>
    rcases b with _ | ⟨y, b⟩
    · exact iff_of_false (List.not_lt_nil _) (List.not_lt_nil _)
    · have hsame : high x = high y ∧ low x = low y ↔ x = y :=
        ⟨fun h => by rw [← byte_high_low x, h.1, h.2, byte_high_low], fun h => by simp [h]⟩
      rw [ofBytes_cons, ofBytes_cons, List.cons_lt_cons_iff, List.cons_lt_cons_iff,
        List.cons_lt_cons_iff, ih, nibbles_lt_iff, ← hsame]
      tauto

end Path
end Ethereum
