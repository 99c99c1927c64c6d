/-
# Signed words are numbers in two's complement

A sign with a magnitude stands for a number (`Signed.toInt`).  What a word reads as stands
for the number that the word is in two's complement (`toInt_ofWord`), and writing a number
gives its residue modulo `2 ^ 256` (`toWord_eq`).  So an operation on signs and magnitudes
is right if it does to the numbers what it should, up to that modulus: division
(`toWord_div`), remainder (`toWord_rem`), comparison (`cmp_eq`).

These hold of what words read as (`Signed.Reduced`) and not of every sign and magnitude: a
zero sign next to a magnitude that is not zero stands for nothing, and a magnitude of more
than `2 ^ 255` loses its highest bit in a division.  The one quotient that a sign bit does
not leave room for is that of the least word by minus one, which is the least word again.

Shifts to the right round down (`neg_fdiv_pow`): a negative number is shifted by way of the
number that is one nearer to zero.  `signextend` takes the low bytes of a word as a narrower
word and extends its sign (`signextend_of_lt`).
-/

import Mathlib
import Ethereum.Word.Arithmetic

namespace Ethereum
namespace Signed

variable {x y : Signed}

/-! ## Numbers behind signs and magnitudes -/

/-- The number that a sign and a magnitude stand for. -/
def toInt (x : Signed) : Int :=
  match x.sign with
  | .zero => 0
  | .plus => x.magnitude.toNat
  | .minus => -x.magnitude.toNat

/-- What words read as: zero, or a sign with a magnitude that is in its range. -/
inductive Reduced : Signed → Prop
  | zero : Reduced ⟨.zero, 0⟩
  | plus {m : Word} (hpos : 0 < m.toNat) (hlt : m.toNat < 2 ^ 255) : Reduced ⟨.plus, m⟩
  | minus {m : Word} (hpos : 0 < m.toNat) (hle : m.toNat ≤ 2 ^ 255) : Reduced ⟨.minus, m⟩

theorem toNat_pos_of_ne {w : Word} (h : w ≠ 0) : 0 < w.toNat :=
  Nat.pos_of_ne_zero fun hzero => h (BitVec.eq_of_toNat_eq hzero)

theorem toNat_neg_of_ne {w : Word} (h : w ≠ 0) : (-w).toNat = 2 ^ 256 - w.toNat := by
  have hpos := toNat_pos_of_ne h
  rw [BitVec.toNat_neg, Nat.mod_eq_of_lt (by omega)]

theorem Reduced.ofWord (w : Word) : (Signed.ofWord w).Reduced := by
  have hlt := w.isLt
  rw [Signed.ofWord, BitVec.msb_eq_decide]
  split
  · exact .zero
  · rename_i hne
    have hpos := toNat_pos_of_ne hne
    have hneg := toNat_neg_of_ne hne
    simp only [decide_eq_true_eq]
    split
    · exact .minus (by omega) (by omega)
    · exact .plus hpos (by omega)

/-- **A word reads as the number that it is in two's complement.** -/
theorem toInt_ofWord (w : Word) : (ofWord w).toInt = w.toInt := by
  have hlt := w.isLt
  rw [ofWord, BitVec.toInt_eq_msb_cond]
  split
  · rename_i hzero
    rw [hzero]
    decide
  · rename_i hne
    have hneg := toNat_neg_of_ne hne
    split
    · rw [toInt, hneg]
      simp only
      omega
    · rfl

/-- **A number is written as its residue.** -/
theorem toWord_eq (x : Signed) : x.toWord = BitVec.ofInt 256 x.toInt := by
  obtain ⟨sign, m⟩ := x
  have hm : BitVec.ofInt 256 m.toNat = m := by
    rw [BitVec.ofInt_natCast, BitVec.ofNat_toNat, BitVec.setWidth_eq]
  cases sign with
  | zero => rfl
  | plus => exact hm.symm
  | minus => rw [toWord, toInt, BitVec.ofInt_neg, hm]

/-- A magnitude of zero is written as zero, whatever its sign. -/
theorem toWord_ite (sign : Sign) (m : Word) :
    toWord (if m = 0 then zero else ⟨sign, m⟩) = toWord ⟨sign, m⟩ := by
  split
  · rename_i hm
    rw [hm]
    cases sign <;> decide
  · rfl

/-! ## Order -/

theorem cmp_eq (hx : x.Reduced) (hy : y.Reduced) : cmp x y = compare x.toInt y.toInt := by
  cases hx <;> cases hy <;>
    simp only [cmp, toInt, compare, compareOfLessAndEq, BitVec.lt_def, ← BitVec.toNat_inj]
  all_goals grind

/-! ## Quotients and remainders -/

theorem withoutSignBit_eq {w : Word} (h : w.toNat < 2 ^ 255) : withoutSignBit w = w := by
  refine BitVec.eq_of_toNat_eq ?_
  rw [withoutSignBit, BitVec.toNat_and, BitVec.toNat_intMax]
  exact Nat.and_two_pow_sub_one_of_lt_two_pow h

theorem Reduced.magnitude_le (h : x.Reduced) : x.magnitude.toNat ≤ 2 ^ 255 := by
  cases h with
  | zero => exact Nat.zero_le _
  | plus _ hlt => exact hlt.le
  | minus _ hle => exact hle

theorem Reduced.magnitude_pos (h : x.Reduced) (hx : x ≠ Signed.zero) : 0 < x.magnitude.toNat := by
  cases h with
  | zero => exact absurd rfl hx
  | plus hpos _ => exact hpos
  | minus hpos _ => exact hpos

theorem Reduced.eq_least (h : x.Reduced) (hx : x.magnitude.toNat = 2 ^ 255) : x = least := by
  cases h with
  | zero => exact absurd hx (by decide)
  | plus _ hlt => exact absurd hx hlt.ne
  | minus _ _ => exact congrArg _ (BitVec.eq_of_toNat_eq hx)

/-- The quotient of two magnitudes leaves the sign bit free, but for `2 ^ 255` over one. -/
theorem toNat_div_lt {m n : Word} (hm : m.toNat ≤ 2 ^ 255) (hn : 0 < n.toNat)
    (h : m.toNat = 2 ^ 255 → n.toNat ≠ 1) : (m / n).toNat < 2 ^ 255 := by
  rw [BitVec.toNat_udiv]
  rcases Nat.lt_or_ge n.toNat 2 with hlt | hge
  · have hone : n.toNat = 1 := by omega
    rw [hone, Nat.div_one]
    omega
  · have hhalf := Nat.div_le_div_left hge (a := m.toNat) Nat.two_pos
    omega

/-- **Division truncates toward zero**, modulo `2 ^ 256`. -/
theorem toWord_div (hx : x.Reduced) (hy : y.Reduced) :
    (div x y).toWord = BitVec.ofInt 256 (x.toInt.tdiv y.toInt) := by
  rw [div]
  split
  · rename_i hzero
    rw [hzero, show zero.toInt = 0 from rfl, Int.tdiv_zero]
    rfl
  split
  -- Minus `2 ^ 255` over one and over minus one: both quotients are `2 ^ 255` as residues.
  · rename_i h
    obtain ⟨rfl, hone⟩ := h
    cases hy with
    | zero => contradiction
    | plus =>
      obtain rfl : _ = 1 := hone
      decide
    | minus =>
      obtain rfl : _ = 1 := hone
      decide
  · rename_i hzero hne
    have hquot : withoutSignBit (x.magnitude / y.magnitude) = x.magnitude / y.magnitude :=
      withoutSignBit_eq (toNat_div_lt hx.magnitude_le (hy.magnitude_pos hzero)
        fun hleast hone => hne ⟨hx.eq_least hleast, BitVec.eq_of_toNat_eq hone⟩)
    cases hx <;> cases hy <;> simp only [hquot, toWord_ite]
    all_goals simp [toWord_eq, toInt]

/-- **The remainder has the sign of the dividend.** -/
theorem toWord_rem (hx : x.Reduced) (hy : y.Reduced) (hzero : y ≠ zero) :
    (rem x y).toWord = BitVec.ofInt 256 (x.toInt.tmod y.toInt) := by
  have hpos := hy.magnitude_pos hzero
  have hne : y.magnitude ≠ 0 := by
    intro h
    simp [h] at hpos
  have hlt : (x.magnitude % y.magnitude).toNat < 2 ^ 255 := by
    rw [BitVec.toNat_umod]
    exact (Nat.mod_lt _ hpos).trans_le hy.magnitude_le
  rw [rem, if_neg hne]
  simp only [withoutSignBit_eq hlt, toWord_ite]
  cases hx <;> cases hy <;> simp [toWord_eq, toInt, ← Int.ofNat_tmod]

end Signed

namespace Word

open Signed (Reduced toInt_ofWord)

/-! ## Operations on words -/

theorem sdiv_eq (a b : Word) : sdiv a b = BitVec.ofInt 256 (a.toInt.tdiv b.toInt) := by
  rw [sdiv, Signed.toWord_div (.ofWord a) (.ofWord b), toInt_ofWord, toInt_ofWord]

theorem srem_eq {b : Word} (a : Word) (hb : b ≠ 0) :
    srem a b = BitVec.ofInt 256 (a.toInt.tmod b.toInt) := by
  have hne : Signed.ofWord b ≠ Signed.zero := by
    intro hzero
    have h := congrArg Signed.toWord hzero
    rw [Signed.toWord_eq, toInt_ofWord, BitVec.ofInt_toInt] at h
    exact hb h
  rw [srem, if_neg hb, Signed.toWord_rem (.ofWord a) (.ofWord b) hne, toInt_ofWord, toInt_ofWord]

theorem slt_eq (a b : Word) : slt a b = ofBool (a.toInt < b.toInt) := by
  rw [slt, Signed.cmp_eq (.ofWord a) (.ofWord b), toInt_ofWord, toInt_ofWord]
  congr 1
  rw [Bool.eq_iff_iff, beq_iff_eq, compare_lt_iff_lt, decide_eq_true_eq]

theorem sgt_eq (a b : Word) : sgt a b = ofBool (b.toInt < a.toInt) := by
  rw [sgt, Signed.cmp_eq (.ofWord a) (.ofWord b), toInt_ofWord, toInt_ofWord]
  congr 1
  rw [Bool.eq_iff_iff, beq_iff_eq, compare_gt_iff_gt, decide_eq_true_eq]

/-! ## Shifts -/

theorem natCast_fdiv_pow (m n : Nat) : (m : Int).fdiv (2 ^ n) = ((m / 2 ^ n : Nat) : Int) := by
  rw [Int.fdiv_eq_ediv_of_nonneg _ (by positivity)]
  push_cast
  rfl

/-- A negative number over a power of two, rounded down. -/
theorem neg_fdiv_pow {m : Nat} (hm : 0 < m) (n : Nat) :
    (-(m : Int)).fdiv (2 ^ n) = -(((m - 1) / 2 ^ n + 1 : Nat) : Int) := by
  obtain ⟨k, rfl⟩ := Nat.exists_eq_succ_of_ne_zero hm.ne'
  have hpos : (0 : Int) < 2 ^ n := by positivity
  calc (-((k + 1 : Nat) : Int)).fdiv (2 ^ n)
      = Int.negSucc k / 2 ^ n := Int.fdiv_eq_ediv_of_nonneg _ hpos.le
    _ = -((k : Int) / 2 ^ n + 1) := Int.negSucc_ediv k hpos
    _ = -((k / 2 ^ n + 1 : Nat) : Int) := by push_cast; rfl

theorem shiftRight_eq (m : Word) (n : Nat) : m >>> n = BitVec.ofNat 256 (m.toNat / 2 ^ n) := by
  refine BitVec.eq_of_toNat_eq ?_
  rw [BitVec.toNat_ushiftRight, Nat.shiftRight_eq_div_pow, BitVec.toNat_ofNat, Nat.mod_eq_of_lt]
  exact (Nat.div_le_self _ _).trans_lt m.isLt

theorem sar_eq (shift w : Word) :
    sar shift w = BitVec.ofInt 256 (w.toInt.fdiv (2 ^ shift.toNat)) := by
  rw [← toInt_ofWord, sar]
  have hred := Reduced.ofWord w
  have hzero : w = 0 → Signed.ofWord w = Signed.zero := fun h => if_pos h
  generalize Signed.ofWord w = x at hred hzero
  have hlarge : 256 ≤ shift → 2 ^ 256 ≤ 2 ^ shift.toNat := fun h =>
    Nat.pow_le_pow_right Nat.two_pos (BitVec.le_def.mp h)
  -- shifting a magnitude divides it; below zero the quotient is rounded away from it
  cases hred with
  | zero =>
    rw [show Signed.toInt ⟨.zero, 0⟩ = 0 from rfl, Int.zero_fdiv]
    split
    · rfl
    · exact BitVec.zero_ushiftRight
  | @plus m hpos hlt =>
    rw [show Signed.toInt ⟨.plus, m⟩ = m.toNat from rfl, natCast_fdiv_pow, BitVec.ofInt_natCast]
    split
    · rename_i h
      have hpow := hlarge (h.resolve_left fun hw => nomatch hzero hw)
      rw [Nat.div_eq_of_lt (by omega)]
      rfl
    · exact shiftRight_eq m shift.toNat
  | @minus m hpos hle =>
    rw [show Signed.toInt ⟨.minus, m⟩ = -m.toNat from rfl, neg_fdiv_pow hpos, BitVec.ofInt_neg,
      BitVec.ofInt_natCast]
    split
    · rename_i h
      have hpow := hlarge (h.resolve_left fun hw => nomatch hzero hw)
      rw [Nat.div_eq_of_lt (by omega)]
      rfl
    · have hpred : (m - 1).toNat = m.toNat - 1 := BitVec.toNat_sub_of_le (BitVec.le_def.mpr hpos)
      rw [BitVec.ofNat_add, ← hpred, ← shiftRight_eq]
      rfl

/-! ## Signs of bytes -/

/-- The bits below a power of two. -/
theorem getLsbD_mask {n : Nat} (hn : n < 256) (i : Nat) :
    ((1 <<< n) - 1 : Word).getLsbD i = decide (i < n) := by
  have hpow : 2 ^ n < 2 ^ 256 := Nat.pow_lt_pow_right (by omega) hn
  have htop : ((1 <<< n : Nat) : Word).toNat = 2 ^ n := by
    rw [BitVec.natCast_eq_ofNat, BitVec.toNat_ofNat, Nat.one_shiftLeft, Nat.mod_eq_of_lt hpow]
  have hmask : ((1 <<< n) - 1 : Word).toNat = 2 ^ n - 1 := by
    rw [BitVec.toNat_sub_of_le, htop]
    · rfl
    · rw [BitVec.le_def, htop]
      exact Nat.one_le_two_pow
  rw [BitVec.getLsbD, hmask, Nat.testBit_two_pow_sub_one]

/-- Below 32 the index tells how many low bytes make the word whose sign is extended. -/
theorem signextend_of_lt {index : Word} (h : index.toNat < 32) (w : Word) :
    signextend index w = (w.setWidth (8 * (index.toNat + 1))).signExtend 256 := by
  refine BitVec.eq_of_getLsbD_eq fun i hi => ?_
  have hmsb : (w.setWidth (8 * (index.toNat + 1))).msb = w.getLsbD (8 * index.toNat + 7) := by
    rw [BitVec.msb_setWidth]
    simp [Nat.mul_add]
  have hmask := getLsbD_mask (n := 8 * index.toNat + 7) (by omega)
  rw [signextend, if_pos (BitVec.lt_def.mpr h), BitVec.getLsbD_signExtend, hmsb]
  simp only
  split
  · rename_i hbit
    rw [BitVec.getLsbD_or, BitVec.getLsbD_not, hmask, hbit, BitVec.getLsbD_setWidth]
    -- The mask ends below the sign, which the narrower word has itself.
    by_cases hsign : i = 8 * index.toNat + 7
    · rw [hsign] at hi ⊢
      simp [hi, hbit]
      omega
    · grind
  · rename_i hbit
    rw [BitVec.getLsbD_and, hmask, BitVec.getLsbD_setWidth]
    grind

theorem signextend_eq (index w : Word) : signextend index w =
    if index.toNat ≤ 30 then BitVec.ofInt 256 (w.setWidth (8 * (index.toNat + 1))).toInt
    else w := by
  split
  · exact signextend_of_lt (by omega) w
  · by_cases h : index.toNat < 32
    · rw [signextend_of_lt h, show index.toNat = 31 by omega]
      exact (BitVec.signExtend_eq _).trans (BitVec.setWidth_eq w)
    · rw [signextend, if_neg (mt BitVec.lt_def.mp h)]

/-- **Signed operations follow two's complement.**  On all words, a quotient is truncated
toward zero and wraps, as it does for the least word over minus one; a remainder has the
sign of the dividend; both are zero for a zero divisor.  Comparisons are those of the
numbers, a shift to the right by any word is the quotient by the power of two rounded down,
and an index of at most 30 makes the bytes up to it a signed number, any other leaves the
word. -/
theorem follows_twosComplement :
    (∀ a b : Word, sdiv a b = if b = 0 then 0 else BitVec.ofInt 256 (a.toInt.tdiv b.toInt)) ∧
    sdiv (BitVec.intMin 256) (-1) = BitVec.intMin 256 ∧
    (∀ a b : Word, srem a b = if b = 0 then 0 else BitVec.ofInt 256 (a.toInt.tmod b.toInt)) ∧
    (∀ a b : Word, slt a b = ofBool (a.toInt < b.toInt)) ∧
    (∀ a b : Word, sgt a b = ofBool (a.toInt > b.toInt)) ∧
    (∀ shift w : Word, sar shift w = BitVec.ofInt 256 (w.toInt.fdiv (2 ^ shift.toNat))) ∧
    (∀ index w : Word, signextend index w =
      if index.toNat ≤ 30 then BitVec.ofInt 256 (w.setWidth (8 * (index.toNat + 1))).toInt
      else w) := by
  refine ⟨fun a b => ?_, by decide, fun a b => ?_, slt_eq, sgt_eq, sar_eq, signextend_eq⟩
  · split
    · rename_i hb
      rw [sdiv_eq, hb, show (0 : Word).toInt = 0 from rfl, Int.tdiv_zero]
      rfl
    · exact sdiv_eq a b
  · split
    · rename_i hb
      rw [srem, if_pos hb]
    · rename_i hb
      exact srem_eq a hb

end Word
end Ethereum
