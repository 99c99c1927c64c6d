/-
# Powers and modular sums are exact

A power is taken by squaring, in products that wrap.  Wrapping is the arithmetic of residues
modulo `2 ^ 256`, in which words are a ring, so the loop keeps `acc * base ^ e` as its
exponent is halved and its base squared (`mulPow_eq`), and the power is right as a residue
(`toNat_exp`).

A modular sum or product must not wrap, since the modulus need not be a power of two.  In
twice the width neither does (`toNat_add_double`, `toNat_mul_double`), and what is left
below the modulus fits the width again (`toNat_low_umod`).
-/

import Mathlib
import Ethereum.Word.Arithmetic

namespace Ethereum
namespace Word

/-- **What the loop keeps**: the accumulator times the power that is left to take. -/
theorem mulPow_eq (acc base : Word) (e : Nat) : mulPow acc base e = acc * base ^ e := by
  fun_induction mulPow acc base e with
  | case1 acc base => rw [pow_zero, mul_one]
  | case2 acc base e _ ih =>
    have hsplit : base ^ e = base ^ (e % 2) * (base * base) ^ (e / 2) := by
      rw [← pow_two, ← pow_mul, ← pow_add, Nat.mod_add_div]
    simp only [dite_eq_ite] at ih
    rw [ih, hsplit, ← mul_assoc]
    congr 1
    rcases Nat.mod_two_eq_zero_or_one e with heven | hodd
    · simp [heven]
    · simp [hodd]

/-- **A power is taken modulo `2 ^ 256`.** -/
theorem toNat_exp (b e : Word) : (exp b e).toNat = b.toNat ^ e.toNat % 2 ^ 256 := by
  rw [exp, mulPow_eq, one_mul, BitVec.toNat_pow]

/-! ## Twice the width -/

theorem toNat_add_double {w : Nat} (hw : 0 < w) (a b : BitVec w) :
    (a.setWidth (w + w) + b.setWidth (w + w)).toNat = a.toNat + b.toNat := by
  have hle : w ≤ w + w := Nat.le_add_right w w
  rw [BitVec.toNat_add, BitVec.toNat_setWidth_of_le hle, BitVec.toNat_setWidth_of_le hle,
    Nat.mod_eq_of_lt]
  calc a.toNat + b.toNat < 2 ^ w + 2 ^ w := Nat.add_lt_add a.isLt b.isLt
    _ = 2 ^ (w + 1) := (Nat.two_pow_succ w).symm
    _ ≤ 2 ^ (w + w) := Nat.pow_le_pow_right Nat.two_pos (Nat.add_le_add_left hw w)

theorem toNat_mul_double {w : Nat} (a b : BitVec w) :
    (a.setWidth (w + w) * b.setWidth (w + w)).toNat = a.toNat * b.toNat := by
  have hle : w ≤ w + w := Nat.le_add_right w w
  rw [BitVec.toNat_mul, BitVec.toNat_setWidth_of_le hle, BitVec.toNat_setWidth_of_le hle,
    Nat.mod_eq_of_lt]
  calc a.toNat * b.toNat < 2 ^ w * 2 ^ w := Nat.mul_lt_mul'' a.isLt b.isLt
    _ = 2 ^ (w + w) := (Nat.pow_add 2 w w).symm

theorem toNat_widen (a : Word) : (widen a).toNat = a.toNat :=
  BitVec.toNat_setWidth_of_le (by omega)

theorem toNat_widen_add (a b : Word) : (widen a + widen b).toNat = a.toNat + b.toNat :=
  toNat_add_double (by omega) a b

theorem toNat_widen_mul (a b : Word) : (widen a * widen b).toNat = a.toNat * b.toNat :=
  toNat_mul_double a b

/-- What is left below a modulus loses nothing in its low half. -/
theorem toNat_low_umod (x : BitVec 512) {n : Word} (hn : n ≠ 0) :
    (low (x % widen n)).toNat = x.toNat % n.toNat := by
  have hpos : 0 < n.toNat := Nat.pos_of_ne_zero fun h => hn (BitVec.eq_of_toNat_eq h)
  rw [low, BitVec.toNat_setWidth, BitVec.toNat_umod, toNat_widen, Nat.mod_eq_of_lt]
  exact (Nat.mod_lt _ hpos).trans n.isLt

theorem toNat_addmod (a b n : Word) :
    (addmod a b n).toNat = if n = 0 then 0 else (a.toNat + b.toNat) % n.toNat := by
  rw [addmod]
  split
  · rfl
  · rename_i hn
    rw [toNat_low_umod _ hn, toNat_widen_add]

theorem toNat_mulmod (a b n : Word) :
    (mulmod a b n).toNat = if n = 0 then 0 else a.toNat * b.toNat % n.toNat := by
  rw [mulmod]
  split
  · rfl
  · rename_i hn
    rw [toNat_low_umod _ hn, toNat_widen_mul]

/-- **Modular arithmetic is exact.**  On all words, a power is that of the numbers modulo
`2 ^ 256`, also for the largest exponent, and `0 ^ 0` is one; a modular sum and a modular
product are those of the numbers, however large, and zero modulo zero. -/
theorem modular_exact :
    (∀ b e : Word, (exp b e).toNat = b.toNat ^ e.toNat % 2 ^ 256) ∧
    exp 0 0 = 1 ∧
    (∀ a b n : Word,
      (addmod a b n).toNat = if n = 0 then 0 else (a.toNat + b.toNat) % n.toNat) ∧
    ∀ a b n : Word,
      (mulmod a b n).toNat = if n = 0 then 0 else a.toNat * b.toNat % n.toNat := by
  refine ⟨toNat_exp, ?_, toNat_addmod, toNat_mulmod⟩
  rw [exp, mulPow_eq, one_mul]
  exact pow_zero 0

/-- In 256 bits the product would wrap to one. -/
example : mulmod max max 12 = 9 := by decide +kernel

end Word
end Ethereum
