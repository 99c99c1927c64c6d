/-
# What is paid for can be addressed

No frame can pay for more words of memory than 32 bits count, and an access is paid for as far as
it reaches.  So the memory of a frame stays small (`Memory.Tame`), and an offset and a length that
were paid for are quantities, also together (`Memory.Reached`, `Instruction.reached_of_cost`).
-/

import Mathlib
import Ethereum.Proofs.Interpreter.Expanding

namespace Ethereum

/-! ## Memory -/

namespace Memory

variable {m m' : Memory} {offset len : Word}

/-- No more was paid for than can be, and nothing but the size of a quantity limits writing. -/
structure Tame (m : Memory) : Prop where
  words_le : m.activeWords.toNat ≤ maxWords
  limit_eq : m.limit = Quantity.max

/-- An access that ends where memory can be paid for, or reads and writes nothing. -/
def Reached (offset len : Word) : Prop :=
  len ≠ 0 → offset.toNat + len.toNat ≤ 32 * maxWords

theorem tame_empty : (empty Quantity.max).Tame := ⟨Nat.zero_le _, rfl⟩

/-- Growing the memory by an access that was paid for. -/
theorem Tame.resizeOffset (hm : m.Tame) (hreached : Reached offset len)
    (h : m.resizeOffset offset len = .ok m') : { m with size := m'.size }.Tame := by
  rcases resizeOffset_cases h with ⟨rfl, -⟩ | ⟨hlen, -, hsize⟩
  · exact hm
  · have hstop := hreached hlen
    refine ⟨?_, hm.limit_eq⟩
    rw [toNat_activeWords]
    rw [wordsOf, if_neg hlen] at hsize
    dsimp only at hsize ⊢
    omega

/-- Tame memory admits writing where it can be paid for. -/
theorem Tame.admits (hm : m.Tame) {offset len : Nat} (h : len = 0 ∨ offset + len ≤ Quantity.max) :
    m.admits offset len = true := by
  rw [Memory.admits, hm.limit_eq, Bool.or_eq_true, Bool.and_eq_true, decide_eq_true_iff,
    decide_eq_true_iff, and_self]
  exact h

theorem Tame.write (hm : m.Tame) (offset : Nat) (bytes : Bytes) : (m.write offset bytes).Tame := by
  unfold Memory.write
  split
  · exact hm
  · exact ⟨hm.words_le, hm.limit_eq⟩

theorem Reached.le_max (h : Reached offset len) (hlen : len ≠ 0) :
    offset.toNat + len.toNat ≤ Quantity.max :=
  (h hlen).trans (by decide)

theorem toQuantity?_of_le {w : Word} (h : w.toNat ≤ Quantity.max) : w.toQuantity? = some w.toNat :=
  if_pos h

end Memory

/-! ## Instructions -/

/-- **Regions over which the memory can be grown** for a price can be addressed. -/
theorem Frame.reached_of_expansion {f : Frame} {regions : List (Word × Word)} {n : Nat}
    (hf : f.memory.Tame) (h : f.expansion regions = .ok n) :
    ∀ region ∈ regions, Memory.Reached region.1 region.2 := by
  intro region hregion
  obtain ⟨w, hw, hprice⟩ := memory_of_expansion (Gas.memory_eq_ok hf.words_le) h
  have hle : Memory.wordsOf region ≤ Memory.wordsOver f.memory.activeWords.toNat regions :=
    Memory.wordsOf_le_wordsOver hregion
  exact fun hlen => Memory.le_of_wordsOf_le hlen (hle.trans (hw ▸ Gas.le_of_memory hprice))

/-- **What an instruction was paid for**, it can address. -/
theorem Instruction.reached_of_cost {i : Instruction} {c : Context} {f : Frame} {j : Journal}
    {n : Nat} (hf : f.memory.Tame) (h : i.cost c f j = .ok n) :
    ∀ region ∈ i.regions f.stack.items, Memory.Reached region.1 region.2 := by
  obtain ⟨e, -, he⟩ := exists_expansion_of_cost h
  exact Frame.reached_of_expansion hf he

end Ethereum
