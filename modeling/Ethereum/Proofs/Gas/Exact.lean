/-
# Dynamic prices are exact

A price that depends on a size is computed in registers of 64 bits, from operands of 256.
Each formula comes to the number that it should, over the unbounded numbers, or to running
out of gas, and to that only where an operand is out of its range or the number is no
quantity (`Price.exactly`).

Nothing wraps, for three reasons.  A length is narrowed only if it can be rounded up
(`words_eq`).  Products and sums with what came of it are checked (`linear_eq`), and so are
those for memory, where a square of 32 bits has 64 (`memory_eq`).  What is not checked is
small: what the topics of a log cost, what an exponent of 32 bytes costs (`exp_eq`), and
the difference of two prices of memory, of which the larger one was a quantity
(`memoryExpansion_eq`).

The bytes of an exponent are counted from its highest bit, which is looked for in one limb
after the other (`highestBit_eq`).
-/

import Mathlib
import Ethereum.Gas.Schedule

namespace Ethereum

/-! ## Positions of bits -/

/-- The low `j` bits left out, the highest bit is `j` positions lower. -/
theorem log2_eq_add_of_div {n j : Nat} (h : n / 2 ^ j ≠ 0) :
    n.log2 = (n / 2 ^ j).log2 + j := by
  have hpos : 0 < 2 ^ j := Nat.two_pow_pos j
  have hn : n ≠ 0 := by
    rintro rfl
    exact h (Nat.zero_div _)
  rw [Nat.log2_eq_iff hn]
  constructor
  · rw [Nat.pow_add]
    exact (Nat.le_div_iff_mul_le hpos).mp (Nat.log2_self_le h)
  · rw [Nat.add_right_comm, Nat.pow_add]
    exact (Nat.div_lt_iff_lt_mul hpos).mp Nat.lt_log2_self

/-- The shortest byte string that writes a number reaches up to its highest bit. -/
theorem Bytes.length_ofNat {n : Nat} (h : n ≠ 0) : (ofNat n).length = n.log2 / 8 + 1 := by
  fun_induction ofNat n with
  | case1 => exact absurd rfl h
  | case2 n _ ih =>
    rw [List.length_append, List.length_singleton]
    by_cases hrest : n / 256 = 0
    · have hlog : n.log2 < 8 := (Nat.log2_lt h).mpr (by omega)
      rw [hrest, ofNat, if_pos rfl, List.length_nil]
      omega
    · have hlog : n.log2 = (n / 256).log2 + 8 := log2_eq_add_of_div (j := 8) hrest
      rw [ih hrest]
      omega

namespace Gas

/-- The topmost limb of a word is what is left of it above the others. -/
theorem toNat_limb {w : Word} {k : Nat} (h : w.toNat < 2 ^ (64 * (k + 1))) :
    (limb w k).toNat = w.toNat / 2 ^ (64 * k) := by
  rw [limb, BitVec.extractLsb'_toNat, Nat.shiftRight_eq_div_pow, Nat.mod_eq_of_lt]
  rw [Nat.div_lt_iff_lt_mul (Nat.two_pow_pos _), ← Nat.pow_add]
  convert h using 2
  omega

theorem log2_eq_sub_clz {x : BitVec 64} (hx : x ≠ 0) :
    x.clz.toNat < 64 ∧ x.toNat.log2 = 63 - x.clz.toNat := by
  have hclz : x.clz.toNat < 64 := BitVec.lt_def.mp (BitVec.clz_lt_iff_ne_zero.mpr hx)
  have hne : x.toNat ≠ 0 := fun h => hx (BitVec.eq_of_toNat_eq h)
  refine ⟨hclz, (Nat.log2_eq_iff hne).mpr
    ⟨BitVec.two_pow_sub_clz_le_toNat_of_ne_zero (by omega) hx, ?_⟩⟩
  have hlt := BitVec.toNat_lt_two_pow_sub_clz (x := x)
  rwa [show 63 - x.clz.toNat + 1 = 64 - x.clz.toNat by omega]

/-- Nothing lies above the limbs that are left to look at. -/
theorem highestBit_go {w : Word} (hw : w ≠ 0) {k : Nat} (h : w.toNat < 2 ^ (64 * k)) :
    highestBit.go w k (64 * k) = w.toNat.log2 := by
  induction k with
  | zero =>
    have hzero : w.toNat = 0 := by simpa using h
    exact absurd (BitVec.eq_of_toNat_eq hzero) hw
  | succ k ih =>
    have hlimb := toNat_limb h
    rw [highestBit.go]
    split
    · rename_i hzero
      rw [hzero, eq_comm] at hlimb
      exact ih (Nat.lt_of_div_eq_zero (Nat.two_pow_pos _) hlimb)
    · rename_i hne
      obtain ⟨hclz, hlog⟩ := log2_eq_sub_clz hne
      have hrest : w.toNat / 2 ^ (64 * k) ≠ 0 := by
        rw [← hlimb]
        exact fun h => hne (BitVec.eq_of_toNat_eq h)
      rw [log2_eq_add_of_div hrest, ← hlimb, hlog]
      simp only
      split <;> omega

/-- **The limbs lead to the highest bit.** -/
theorem highestBit_eq {w : Word} (hw : w ≠ 0) : highestBit w = w.toNat.log2 :=
  highestBit_go (k := 4) hw w.isLt

theorem significantBytes_eq (e : Word) : significantBytes e = (Bytes.ofNat e.toNat).length := by
  rw [significantBytes]
  split
  · rename_i he
    rw [he, BitVec.ofNat_eq_ofNat, BitVec.toNat_zero, Bytes.ofNat, if_pos rfl, List.length_nil]
  · rename_i he
    rw [highestBit_eq he, Bytes.length_ofNat fun h => he (BitVec.eq_of_toNat_eq h)]

theorem significantBytes_le (e : Word) : significantBytes e ≤ 32 := by
  rw [significantBytes]
  split
  · omega
  · rename_i he
    have hlog : e.toNat.log2 < 256 :=
      (Nat.log2_lt fun h => he (BitVec.eq_of_toNat_eq h)).mpr e.isLt
    rw [highestBit_eq he]
    omega

/-! ## Formulas -/

/-- A number as a price, where the operands are in range and the number is a quantity. -/
def Price.exactly (inRange : Prop) [Decidable inRange] (n : Nat) : Price :=
  if inRange ∧ n ≤ Quantity.max then .ok n else .error .outOfGas

theorem Price.exactly_of_le {inRange : Prop} [Decidable inRange] {n : Nat}
    (h : inRange → n ≤ Quantity.max) :
    exactly inRange n = if inRange then .ok n else .error .outOfGas := by
  rw [exactly]
  congr 1
  exact propext (and_iff_left_of_imp h)

theorem Price.eq_of_exactly {inRange : Prop} [Decidable inRange] {n price : Nat}
    (h : exactly inRange n = .ok price) : price = n := by
  rw [exactly] at h
  split at h
  · exact (Except.ok.inj h).symm
  · cases h

theorem words_eq (len : Word) :
    words len = if len.toNat ≤ 2 ^ 64 - 32 then some (len.toNat ⌈/⌉ 32) else none := by
  have hmax : Quantity.max - 31 = 2 ^ 64 - 32 := rfl
  rw [words, hmax]
  split
  · rename_i hlen
    rw [Quantity.wrapAdd_eq_of_le (by omega), Nat.ceilDiv_eq_add_pred_div]
    rfl
  · rfl

theorem linear_eq (base rate n : Nat) : linear base rate n = .exactly True (base + rate * n) := by
  rw [linear, Quantity.checkedMul, Price.exactly, Nat.add_comm base]
  by_cases hmul : rate * n ≤ Quantity.max
  · rw [if_pos hmul, Option.bind_some, Quantity.checkedAdd]
    split <;> simp_all [Price.ofOption]
  · rw [if_neg hmul, if_neg (by omega)]
    rfl

theorem perWord_eq (base rate : Nat) (len : Word) : perWord base rate len =
    .exactly (len.toNat ≤ 2 ^ 64 - 32) (base + rate * (len.toNat ⌈/⌉ 32)) := by
  rw [perWord, words_eq, Price.exactly]
  by_cases hlen : len.toNat ≤ 2 ^ 64 - 32
  · rw [if_pos hlen]
    exact (linear_eq base rate _).trans (by simp only [Price.exactly, hlen])
  · rw [if_neg hlen, if_neg fun h => hlen h.1]

theorem log_eq (topics : Fin 5) (len : Word) :
    log topics len = .exactly True (375 + 375 * topics + 8 * len.toNat) := by
  have htopics : Quantity.wrapAdd 375 (Quantity.wrapMul 375 topics) = 375 + 375 * topics := by
    fin_cases topics <;> rfl
  rw [log, Word.toQuantity?]
  by_cases hlen : len.toNat ≤ Quantity.max
  · simp only [if_pos hlen, htopics, linear_eq]
  · rw [if_neg hlen, Price.exactly, if_neg (by omega)]

theorem exp_eq (s : Schedule) (e : Word) :
    s.exp e = 10 + s.expByte * (Bytes.ofNat e.toNat).length := by
  have hbytes := significantBytes_le e
  have hprice : s.expByte * significantBytes e ≤ 50 * 32 :=
    Nat.mul_le_mul (by cases s <;> decide) hbytes
  have hmax : 50 * 32 + 10 ≤ Quantity.max := by decide
  rw [Schedule.exp, exp, Quantity.wrapMul_eq_of_le (by omega), Quantity.wrapAdd_eq_of_le (by omega),
    significantBytes_eq]

/-! ## Memory -/

/-- What holding so many words of memory costs in all. -/
def heldPrice (words : Nat) : Nat := 3 * words + words ^ 2 / 512

theorem heldPrice_mono {a b : Nat} (h : a ≤ b) : heldPrice a ≤ heldPrice b :=
  Nat.add_le_add (Nat.mul_le_mul_left 3 h) (Nat.div_le_div_right (Nat.pow_le_pow_left h 2))

theorem heldPrice_le_max {a : Nat} (h : a ≤ 2 ^ 32 - 1) : heldPrice a ≤ Quantity.max :=
  (heldPrice_mono h).trans (by decide)

theorem memory_eq (a : Word) :
    memory a = if a.toNat ≤ 2 ^ 32 - 1 then .ok (heldPrice a.toNat) else .error .outOfGas := by
  have hlimit : 0xffffffff = 2 ^ 32 - 1 := rfl
  rw [memory, hlimit]
  split
  · rename_i ha
    have hsquare : a.toNat * a.toNat ≤ Quantity.max :=
      (Nat.mul_le_mul ha ha).trans (by decide)
    have hlinear : 3 * a.toNat ≤ Quantity.max := (Nat.mul_le_mul_left 3 ha).trans (by decide)
    have htotal := heldPrice_le_max ha
    rw [heldPrice, Nat.pow_two] at htotal ⊢
    simp [Quantity.checkedMul, Quantity.checkedAdd, hlinear, hsquare, htotal, Price.ofOption]
  · rfl

/-- Memory that is there costs nothing more. -/
theorem memoryExpansion_of_le {current new : Word} (h : new ≤ current) :
    memoryExpansion current new = .ok 0 := by
  rw [memoryExpansion, if_pos h]
  rfl

theorem memoryExpansion_eq {current new : Word} (h : current < new) :
    memoryExpansion current new =
      if new.toNat ≤ 2 ^ 32 - 1 then .ok (heldPrice new.toNat - heldPrice current.toNat)
      else .error .outOfGas := by
  have hlt : current.toNat < new.toNat := BitVec.lt_def.mp h
  rw [memoryExpansion, if_neg (BitVec.not_le.mpr h), memory_eq, memory_eq]
  by_cases hnew : new.toNat ≤ 2 ^ 32 - 1
  · rw [if_pos hnew, if_pos hnew, if_pos (hlt.le.trans hnew),
      ← Quantity.wrapSub_eq_of_le (heldPrice_mono hlt.le) (heldPrice_le_max hnew)]
    rfl
  · rw [if_neg hnew, if_neg hnew]
    rfl

/-- **Memory costs the same however it is grown**: in one step or in two, also where one of
them cannot be paid for. -/
theorem memoryExpansion_add {a b c : Word} (hab : a ≤ b) (hbc : b ≤ c) :
    (do return (← memoryExpansion a b) + (← memoryExpansion b c)) = memoryExpansion a c := by
  rcases Nat.eq_or_lt_of_le (BitVec.le_def.mp hab) with heq | hlt
  · obtain rfl := BitVec.eq_of_toNat_eq heq
    rw [memoryExpansion_of_le (BitVec.le_refl a)]
    cases memoryExpansion a c <;> simp [bind, Except.bind, pure, Except.pure]
  rcases Nat.eq_or_lt_of_le (BitVec.le_def.mp hbc) with heq | hlt'
  · obtain rfl := BitVec.eq_of_toNat_eq heq
    rw [memoryExpansion_of_le (BitVec.le_refl b)]
    cases memoryExpansion a b <;> simp [bind, Except.bind, pure, Except.pure]
  rw [memoryExpansion_eq (BitVec.lt_def.mpr hlt), memoryExpansion_eq (BitVec.lt_def.mpr hlt'),
    memoryExpansion_eq (BitVec.lt_def.mpr (hlt.trans hlt'))]
  by_cases hc : c.toNat ≤ 2 ^ 32 - 1
  · have hsum : heldPrice b.toNat - heldPrice a.toNat + (heldPrice c.toNat - heldPrice b.toNat) =
        heldPrice c.toNat - heldPrice a.toNat := by
      have := heldPrice_mono hlt.le
      have := heldPrice_mono hlt'.le
      omega
    rw [if_pos hc, if_pos hc, if_pos (hlt'.le.trans hc), ← hsum]
    rfl
  · rw [if_neg hc, if_neg hc]
    split <;> rfl

/-! ## The formulas of a schedule -/

/-- **Dynamic prices never wrap.**  In every schedule, whatever the words, a price is the
exact number or out of gas, the latter only if a length is over `2 ^ 64 - 32`, a number of
words over `2 ^ 32 - 1` or the number no quantity.  Growing memory costs what the prices
differ by, which is not negative and adds up, and a power costs the same for every byte of
the shortest string that writes its exponent. -/
theorem dynamic_prices_exact (s : Schedule) :
    (∀ len, sha3 len =
      .exactly (len.toNat ≤ 2 ^ 64 - 32) (30 + 6 * (len.toNat ⌈/⌉ 32))) ∧
    (∀ base len, copy base len =
      .exactly (len.toNat ≤ 2 ^ 64 - 32) (base + 3 * (len.toNat ⌈/⌉ 32))) ∧
    (∀ len, s.extCodeCopy len =
      .exactly (len.toNat ≤ 2 ^ 64 - 32) (s.extCode + 3 * (len.toNat ⌈/⌉ 32))) ∧
    (∀ len, create2 len =
      .exactly (len.toNat ≤ 2 ^ 64 - 32) (32000 + 6 * (len.toNat ⌈/⌉ 32))) ∧
    (∀ (topics : Fin 5) len, log topics len =
      .exactly True (375 + 375 * topics + 8 * len.toNat)) ∧
    (∀ a, memory a = .exactly (a.toNat ≤ 2 ^ 32 - 1) (3 * a.toNat + a.toNat ^ 2 / 512)) ∧
    (∀ current new, current < new → heldPrice current.toNat ≤ heldPrice new.toNat ∧
      memoryExpansion current new = .exactly (new.toNat ≤ 2 ^ 32 - 1)
        (heldPrice new.toNat - heldPrice current.toNat)) ∧
    (∀ a b c, a ≤ b → b ≤ c →
      (do return (← memoryExpansion a b) + (← memoryExpansion b c)) = memoryExpansion a c) ∧
    ∀ e, s.exp e = 10 + s.expByte * (Bytes.ofNat e.toNat).length := by
  refine ⟨perWord_eq 30 6, fun base => perWord_eq base 3, perWord_eq s.extCode 3,
    perWord_eq create 6, log_eq, fun a => ?_, fun current new h => ?_,
    fun a b c => memoryExpansion_add, exp_eq s⟩
  · exact (memory_eq a).trans (Price.exactly_of_le heldPrice_le_max).symm
  · refine ⟨heldPrice_mono (BitVec.le_def.mp (BitVec.le_of_lt h)), ?_⟩
    rw [memoryExpansion_eq h]
    exact (Price.exactly_of_le fun hnew => (Nat.sub_le _ _).trans (heldPrice_le_max hnew)).symm

/-- A kilobyte, grown to the last word that can be paid for. -/
theorem dynamic_prices_exact_of_growth :
    ((0 : Word) < 32 ∧ (0 : Word) ≤ 32 ∧ (32 : Word) ≤ 0xffffffff) ∧
      memoryExpansion 0 32 = .ok 98 ∧
      (do return (← memoryExpansion 0 32) + (← memoryExpansion 32 0xffffffff)) =
        memoryExpansion 0 0xffffffff := by
  have hgrowth : (0 : Word) < 32 ∧ (0 : Word) ≤ 32 ∧ (32 : Word) ≤ 0xffffffff := by decide
  obtain ⟨-, -, -, -, -, -, hexpansion, hadd, -⟩ := dynamic_prices_exact .frontier
  refine ⟨hgrowth, ?_, hadd 0 32 0xffffffff hgrowth.2.1 hgrowth.2.2⟩
  rw [(hexpansion 0 32 hgrowth.1).2]
  decide

end Gas
end Ethereum
