/-
# What growing memory costs

The regions of memory that an instruction names, it grows the memory over (`Instruction.regions`),
and the price of that is what holding the most words that any of them reaches costs more than what
was held (`Frame.memory_of_expansion`).  That price is in the price of the instruction once, on top
of what the same instruction costs a frame that has paid for all memory there is
(`Instruction.splits_ownCost`).
-/

import Mathlib
import Ethereum.Proofs.Interpreter.Charging

namespace Ethereum

/-! ## Memory -/

theorem Word.toNat_of_ofNat? {n : Nat} {w : Word} (h : ofNat? n = some w) : w.toNat = n := by
  rw [ofNat?] at h
  split at h
  · have hmax : max.toNat = 2 ^ 256 - 1 := BitVec.toNat_allOnes
    cases h
    rw [BitVec.toNat_ofNat, Nat.mod_eq_of_lt (by omega)]
  · cases h

/-- A number of bytes of a word is one itself. -/
theorem Word.toNat_ofNat_of_le {n : Nat} (h : n ≤ 32) : (BitVec.ofNat 256 n).toNat = n := by
  rw [BitVec.toNat_ofNat, Nat.mod_eq_of_lt (by omega)]

theorem Word.ofNat_ne_zero {n : Nat} (hpos : 0 < n) (h : n ≤ 32) : BitVec.ofNat 256 n ≠ 0 := by
  intro hzero
  have heq := toNat_ofNat_of_le h
  rw [hzero] at heq
  exact hpos.ne heq

namespace Memory

variable {m m' : Memory} {words : Nat} {offset len w : Word}

/-- The most words that a frame can pay for. -/
def maxWords : Nat := 0xffffffff

/-- The words of memory that cover a region; a region of no bytes needs none. -/
def wordsOf (region : Word × Word) : Nat :=
  if region.2 = 0 then 0 else (region.1.toNat + region.2.toNat + 31) / 32

/-- The words of memory after accesses to regions, with so many before. -/
def wordsOver (words : Nat) (regions : List (Word × Word)) : Nat :=
  (regions.map wordsOf).foldr max words

theorem wordsOver_append (words : Nat) (regions regions' : List (Word × Word)) :
    wordsOver words (regions ++ regions') = wordsOver (wordsOver words regions') regions := by
  rw [wordsOver, List.map_append, List.foldr_append]
  rfl

theorem wordsOf_le_wordsOver {words : Nat} {regions : List (Word × Word)} {region : Word × Word}
    (h : region ∈ regions) : wordsOf region ≤ wordsOver words regions := by
  induction h with
  | head => exact Nat.le_max_left _ _
  | tail _ _ ih => exact ih.trans (Nat.le_max_right _ _)

/-- An access ends within the words that cover it. -/
theorem le_of_wordsOf_le (hlen : len ≠ 0) (h : wordsOf (offset, len) ≤ words) :
    offset.toNat + len.toNat ≤ 32 * words := by
  rw [wordsOf, if_neg hlen] at h
  dsimp only at h
  omega

theorem toNat_of_roundUp {x stop : Word} (h : roundUp x = some stop) :
    stop.toNat = (x.toNat + 31) / 32 * 32 := Word.toNat_of_ofNat? h

theorem toNat_of_checkedAdd {a b c : Word} (h : Word.checkedAdd a b = some c) :
    c.toNat = a.toNat + b.toNat := Word.toNat_of_ofNat? h

theorem toNat_activeWords (m : Memory) : m.activeWords.toNat = m.size.toNat / 32 := by
  rw [activeWords, BitVec.toNat_udiv]
  rfl

/-- **An access** leaves as many words as there were or as many as cover it, whichever is more. -/
theorem toNat_of_wordsAfterAccess (h : m.wordsAfterAccess offset len = .ok w) :
    w.toNat = max (wordsOf (offset, len)) m.activeWords.toNat := by
  rw [wordsAfterAccess] at h
  rw [wordsOf]
  by_cases hlen : len = 0
  · rw [if_pos hlen] at h
    rw [if_pos hlen, Nat.zero_max, Except.ok.inj h]
  rw [if_neg hlen] at h
  rw [if_neg hlen]
  cases hstop : (Word.checkedAdd offset len).bind roundUp with
  | none =>
    rw [hstop] at h
    cases h
  | some stop =>
    rw [hstop] at h
    obtain ⟨sum, hsum, hround⟩ := Option.bind_eq_some_iff.mp hstop
    have hdiv : (stop / 32).toNat = (offset.toNat + len.toNat + 31) / 32 := by
      rw [BitVec.toNat_udiv, toNat_of_roundUp hround, toNat_of_checkedAdd hsum]
      exact Nat.mul_div_left _ (by decide)
    rw [← Except.ok.inj h, ← hdiv]
    split
    · rename_i hle
      exact (max_eq_left (BitVec.le_def.mp hle)).symm
    · rename_i hlt
      exact (max_eq_right (BitVec.lt_def.mp (BitVec.not_le.mp hlt)).le).symm

/-- **Growing the memory** leaves it as it is where it covers the access already. -/
theorem resizeOffset_cases (h : m.resizeOffset offset len = .ok m') :
    (m' = m ∧ (len ≠ 0 → offset.toNat + len.toNat ≤ m.size.toNat)) ∨
      (len ≠ 0 ∧ m.size.toNat < offset.toNat + len.toNat ∧
        m'.size.toNat = 32 * wordsOf (offset, len)) := by
  rw [resizeOffset] at h
  split at h
  · rename_i hlen
    exact .inl ⟨(Except.ok.inj h).symm, fun hne => absurd hlen hne⟩
  rename_i hlen
  -- the end of the region is computed with a check, and so is its rounding up
  cases hsum : Word.checkedAdd offset len with
  | none =>
    rw [hsum] at h
    cases h
  | some stop =>
    rw [hsum] at h
    have hsum := toNat_of_checkedAdd hsum
    dsimp only at h
    rw [resizeEnd] at h
    split at h
    · rename_i hle
      exact .inl ⟨(Except.ok.inj h).symm, fun _ => hsum ▸ BitVec.le_def.mp hle⟩
    · rename_i hlt
      cases hround : roundUp stop with
      | none =>
        rw [hround] at h
        cases h
      | some size =>
        rw [hround] at h
        cases h
        refine .inr ⟨hlen, hsum ▸ BitVec.lt_def.mp (BitVec.not_le.mp hlt), ?_⟩
        rw [wordsOf, if_neg hlen, ← hsum, Nat.mul_comm]
        exact toNat_of_roundUp hround

/-- The memory if all that there is had been paid for. -/
def spacious (m : Memory) : Memory := { m with size := BitVec.ofNat 256 (2 ^ 256 - 32) }

/-- No access that can be priced grows memory that is all paid for. -/
theorem wordsAfterAccess_spacious (h : m.wordsAfterAccess offset len = .ok w) :
    m.spacious.wordsAfterAccess offset len = .ok m.spacious.activeWords := by
  rw [wordsAfterAccess] at h ⊢
  by_cases hlen : len = 0
  · rw [if_pos hlen]
  rw [if_neg hlen] at h ⊢
  cases hstop : (Word.checkedAdd offset len).bind roundUp with
  | none =>
    rw [hstop] at h
    cases h
  | some stop =>
    have hactive : m.spacious.activeWords.toNat = 2 ^ 251 - 1 := by
      rw [toNat_activeWords, spacious, BitVec.toNat_ofNat]
      norm_num
    have hle : (stop / 32).toNat ≤ m.spacious.activeWords.toNat := by
      have hdiv : (stop / 32).toNat = stop.toNat / 32 := BitVec.toNat_udiv
      have hlt := stop.isLt
      omega
    dsimp only
    split
    · rename_i hge
      exact congrArg _ (BitVec.le_antisymm (BitVec.le_def.mpr hle) hge)
    · rfl

end Memory

/-! ## Prices -/

namespace Gas

theorem memoryExpansion_self (a : Word) : memoryExpansion a a = .ok 0 :=
  memoryExpansion_of_le (BitVec.le_refl a)

/-- Memory that has a price is small. -/
theorem le_of_memory {a : Word} {n : Nat} (h : memory a = .ok n) : a.toNat ≤ Memory.maxWords := by
  rw [memory] at h
  split at h
  · assumption
  · cases h

theorem memory_eq_ok {a : Word} (h : a.toNat ≤ Memory.maxWords) :
    memory a = .ok (3 * a.toNat + a.toNat * a.toNat / 512) := by
  rw [memory_eq, ← Nat.pow_two]
  exact if_pos h

/-- **What was paid for some words and what growing them costs** are together the price of all. -/
theorem memory_of_memoryExpansion {current new : Word} {paid n : Nat} (hle : current ≤ new)
    (hpaid : memory current = .ok paid) (h : memoryExpansion current new = .ok n) :
    memory new = .ok (paid + n) := by
  rcases Nat.eq_or_lt_of_le (BitVec.le_def.mp hle) with heq | hlt
  · obtain rfl := BitVec.eq_of_toNat_eq heq
    rw [memoryExpansion_self] at h
    cases h
    exact hpaid
  · rw [memoryExpansion_eq (BitVec.lt_def.mpr hlt)] at h
    split at h
    · rename_i hnew
      rw [memory_eq, if_pos (hlt.le.trans hnew)] at hpaid
      rw [memory_eq, if_pos hnew, ← Except.ok.inj hpaid, ← Except.ok.inj h,
        Nat.add_sub_of_le (heldPrice_mono hlt.le)]
    · cases h

theorem add_eq_ok {a b : Nat} (h : a + b ≤ Quantity.max) : add a b = .ok (a + b) := by
  rw [add, Quantity.checkedAdd, if_pos h]
  rfl

theorem le_max_of_add {a b n : Nat} (h : add a b = .ok n) : a + b ≤ Quantity.max := by
  rw [add, Quantity.checkedAdd] at h
  split at h
  · assumption
  · cases h

end Gas

/-- The regions of memory that two operands give as offset and length, if they are there. -/
def regionAt (items : List Word) (offset len : Nat) : List (Word × Word) :=
  match items[offset]?, items[len]? with
  | some a, some n => [(a, n)]
  | _, _ => []

theorem regionAt_eq {items : List Word} {offset len : Nat} {a n : Word}
    (hoffset : items[offset]? = some a) (hlen : items[len]? = some n) :
    regionAt items offset len = [(a, n)] := by
  rw [regionAt, hoffset, hlen]

theorem mem_regionAt {items : List Word} {offset len : Nat} {a n : Word} :
    (a, n) ∈ regionAt items offset len ↔ items[offset]? = some a ∧ items[len]? = some n := by
  rw [regionAt]
  cases items[offset]? <;> cases items[len]? <;> simp [eq_comm]

namespace Frame

variable {f : Frame} {n base paid : Nat} {offset len offset' len' : Word}
  {regions : List (Word × Word)}

theorem getElem?_of_operand {i : Nat} {w : Word} (h : f.operand i = .ok w) :
    f.stack.items[i]? = some w := by
  rw [operand, Stack.peek] at h
  cases hitem : f.stack.items[i]? with
  | some v =>
    rw [hitem] at h
    rw [Except.ok.inj h]
  | none =>
    rw [hitem] at h
    cases h

theorem regionAt_of_operands {i k : Nat} (hoffset : f.operand i = .ok offset)
    (hlen : f.operand k = .ok len) : regionAt f.stack.items i k = [(offset, len)] :=
  regionAt_eq (getElem?_of_operand hoffset) (getElem?_of_operand hlen)

/-- The price of growing the memory over the regions that an instruction names, of which there are
at most two. -/
def expansion (f : Frame) : List (Word × Word) → Gas.Price
  | [] => return 0
  | [(offset, len)] => f.memoryCost offset len
  | [(offset, len), (offset', len')] => f.memoryCost₂ offset len offset' len'
  | _ => throw .outOfGas

/-- **What was paid for memory and what growing it over regions costs** are together the price of
the words that there are then. -/
theorem memory_of_expansion (hpaid : Gas.memory f.memory.activeWords = .ok paid)
    (h : f.expansion regions = .ok n) :
    ∃ w : Word, w.toNat = Memory.wordsOver f.memory.activeWords.toNat regions ∧
      Gas.memory w = .ok (paid + n) := by
  have hgrown {w : Word} (hw : w.toNat = Memory.wordsOver f.memory.activeWords.toNat regions)
      (hle : f.memory.activeWords.toNat ≤ w.toNat)
      (h : Gas.memoryExpansion f.memory.activeWords w = .ok n) :
      ∃ w : Word, w.toNat = Memory.wordsOver f.memory.activeWords.toNat regions ∧
        Gas.memory w = .ok (paid + n) :=
    ⟨w, hw, Gas.memory_of_memoryExpansion (BitVec.le_def.mpr hle) hpaid h⟩
  match regions, h with
  | [], h => exact hgrown rfl le_rfl (Except.ok.inj h ▸ Gas.memoryExpansion_self _)
  | [(offset, len)], h =>
    obtain ⟨w, hw, h⟩ := exists_of_bind_eq_ok h
    have hw := Memory.toNat_of_wordsAfterAccess hw
    exact hgrown hw (hw ▸ Nat.le_max_right _ _) h
  | [(offset, len), (offset', len')], h =>
    obtain ⟨w, hw, h⟩ := exists_of_bind_eq_ok h
    obtain ⟨w', hw', h⟩ := exists_of_bind_eq_ok h
    have hw := Memory.toNat_of_wordsAfterAccess hw
    have hw' := Memory.toNat_of_wordsAfterAccess hw'
    -- both regions are paid for by the one that ends further up
    have hboth : (if w ≤ w' then w' else w).toNat = max w.toNat w'.toNat := by
      split
      · rename_i hle
        exact (max_eq_right (BitVec.le_def.mp hle)).symm
      · rename_i hlt
        exact (max_eq_left (BitVec.lt_def.mp (BitVec.not_le.mp hlt)).le).symm
    refine hgrown (hboth.trans ?_) (hboth ▸ ?_) h
    · rw [hw, hw', max_assoc, max_left_comm f.memory.activeWords.toNat, max_self]
      rfl
    · exact (hw ▸ Nat.le_max_right _ _).trans (Nat.le_max_left _ _)
  | _ :: _ :: _ :: _, h => cases h

/-- The frame if all memory had been paid for. -/
def spacious (f : Frame) : Frame := { f with memory := f.memory.spacious }

theorem memoryCost_spacious (h : f.memoryCost offset len = .ok n) :
    f.spacious.memoryCost offset len = .ok 0 := by
  obtain ⟨w, hw, -⟩ := exists_of_bind_eq_ok h
  rw [memoryCost, spacious, Memory.wordsAfterAccess_spacious hw]
  exact Gas.memoryExpansion_self _

theorem memoryCost₂_spacious (h : f.memoryCost₂ offset len offset' len' = .ok n) :
    f.spacious.memoryCost₂ offset len offset' len' = .ok 0 := by
  obtain ⟨w, hw, h⟩ := exists_of_bind_eq_ok h
  obtain ⟨w', hw', -⟩ := exists_of_bind_eq_ok h
  rw [memoryCost₂, spacious, Memory.wordsAfterAccess_spacious hw,
    Memory.wordsAfterAccess_spacious hw']
  show Gas.memoryExpansion _ (if _ then _ else _) = _
  rw [ite_self]
  exact Gas.memoryExpansion_self _

end Frame

/-- The first price is the second one and that of growing memory. -/
def Splits {ε : Type} (growth : Gas.Price) (full base : Except ε Nat) : Prop :=
  ∀ n, full = .ok n → ∃ b e, growth = .ok e ∧ base = .ok b ∧ n = b + e

section
variable {ε α : Type} {growth : Gas.Price}

theorem splits_refl (x : Except ε Nat) : Splits (.ok 0) x x :=
  fun n h => ⟨n, 0, rfl, h, rfl⟩

theorem splits_pure {e : Nat} (n : Nat) :
    Splits (.ok e) (pure (n + e) : Except ExitReason Nat) (pure n) := by
  rintro _ ⟨⟩
  exact ⟨n, e, rfl, rfl, rfl⟩

/-- Going on with what both prices depend on. -/
theorem Splits.bind {x : Except ε α} {f g : α → Except ε Nat}
    (h : ∀ a, x = .ok a → Splits growth (f a) (g a)) : Splits growth (x >>= f) (x >>= g) := by
  cases x with
  | ok a => exact h a rfl
  | error e => exact fun n hn => by cases hn

theorem Splits.lift {full base : Gas.Price} (h : Splits growth full base) :
    Splits growth (liftM full : Except ExitReason Nat) (liftM base) := by
  intro n hn
  obtain ⟨b, e, hgrowth, rfl, hsum⟩ := h n (liftM_eq_ok hn)
  exact ⟨b, e, hgrowth, rfl, hsum⟩

theorem Splits.lift_bind {x : Except ExitError α} {f g : α → Except ExitReason Nat}
    (h : ∀ a, x = .ok a → Splits growth (f a) (g a)) :
    Splits growth ((liftM x : Except ExitReason α) >>= f) (liftM x >>= g) :=
  .bind fun a ha => h a (liftM_eq_ok ha)

/-- Going on with what growing memory costs, which is nothing for the second price. -/
theorem Splits.growing {x y : Gas.Price} {F : Nat → Except ExitReason Nat}
    (hy : ∀ e, x = .ok e → y = .ok 0) (hF : ∀ e, Splits (.ok e) (F e) (F 0)) :
    Splits x (liftM x >>= F) (liftM y >>= F) := by
  cases x with
  | error e => exact fun n hn => by cases hn
  | ok e =>
    rw [hy e rfl]
    exact hF e

/-- Adding what growing memory costs. -/
theorem splits_add_growth {a e : Nat} {F : Nat → Except ExitReason Nat}
    (hF : ∀ n, Splits (.ok e) (F (n + e)) (F n)) :
    Splits (.ok e) (liftM (Gas.add a e) >>= F) (liftM (Gas.add a 0) >>= F) := by
  intro n h
  obtain ⟨k, hk, h⟩ := exists_of_bind_eq_ok h
  have hmax := Gas.le_max_of_add (liftM_eq_ok hk)
  rw [Gas.eq_of_add (liftM_eq_ok hk)] at h
  rw [Gas.add_eq_ok (by omega : a + 0 ≤ _)]
  exact hF a n h

/-- Adding to a price that includes the growth. -/
theorem splits_add {a e k : Nat} {F : Nat → Except ExitReason Nat}
    (hF : ∀ n, Splits (.ok e) (F (n + e)) (F n)) :
    Splits (.ok e) (liftM (Gas.add (a + e) k) >>= F) (liftM (Gas.add a k) >>= F) := by
  intro n h
  obtain ⟨m, hm, h⟩ := exists_of_bind_eq_ok h
  have hmax := Gas.le_max_of_add (liftM_eq_ok hm)
  rw [Gas.eq_of_add (liftM_eq_ok hm), Nat.add_right_comm] at h
  rw [Gas.add_eq_ok (by omega : a + k ≤ _)]
  exact hF (a + k) n h

end

theorem Frame.splits_withMemory {f : Frame} {base : Nat} {offset len : Word} :
    Splits (f.expansion [(offset, len)]) (f.withMemory base offset len)
      (f.spacious.withMemory base offset len) := by
  intro n h
  obtain ⟨e, he, h⟩ := exists_of_bind_eq_ok h
  have hmax := Gas.le_max_of_add h
  refine ⟨base, e, he, ?_, Gas.eq_of_add h⟩
  rw [withMemory, memoryCost_spacious he]
  exact Gas.add_eq_ok (by omega)

/-! ## Instructions -/

namespace CallScheme

variable {s : CallScheme} {schedule : Gas.Schedule} {store : Store} {f : Frame} {j : Journal}

/-- The regions of memory that a call reads its input from and may write its output to. -/
def regions (s : CallScheme) (items : List Word) : List (Word × Word) :=
  regionAt items s.inputPosition (s.inputPosition + 1) ++
    regionAt items (s.inputPosition + 2) (s.inputPosition + 3)

/-- The operands below the value of a call are its regions. -/
theorem regions_of_drop {items rest : List Word} {inOffset inLen outOffset outLen : Word}
    (h : items.drop s.inputPosition = inOffset :: inLen :: outOffset :: outLen :: rest) :
    s.regions items = [(inOffset, inLen), (outOffset, outLen)] := by
  have hitem (k : Nat) : items[s.inputPosition + k]? =
      (inOffset :: inLen :: outOffset :: outLen :: rest)[k]? := by
    rw [← h, List.getElem?_drop]
  have hinput : regionAt items s.inputPosition (s.inputPosition + 1) = [(inOffset, inLen)] :=
    regionAt_eq (hitem 0) (hitem 1)
  have houtput : regionAt items (s.inputPosition + 2) (s.inputPosition + 3) =
      [(outOffset, outLen)] := regionAt_eq (hitem 2) (hitem 3)
  rw [regions, hinput, houtput]
  rfl

theorem exists_ownGas_of_cost {n : Nat} (h : s.cost schedule store f j = .ok n) :
    ∃ own, s.ownGas schedule store f j = .ok own ∧ own.1 ≤ n := by
  obtain ⟨split, hsplit, rfl⟩ := exists_gas_of_cost h
  rw [gas_eq] at hsplit
  obtain ⟨own, hown, hsplit⟩ := exists_of_bind_eq_ok hsplit
  obtain ⟨child, -, hsplit⟩ := exists_of_bind_eq_ok hsplit
  cases hsplit
  exact ⟨own, hown, Nat.le_add_right own.1 child⟩

theorem splits_ownGas : Splits (f.expansion (s.regions f.stack.items))
    (Prod.fst <$> s.ownGas schedule store f j)
    (Prod.fst <$> s.ownGas schedule store f.spacious j) := by
  rw [map_eq_bind_pure_comp, map_eq_bind_pure_comp, ownGas, ownGas]
  simp only [bind_assoc]
  refine .lift_bind fun requested _ => .lift_bind fun target _ => .lift_bind fun value _ => ?_
  refine .lift_bind fun inOffset hinOffset => .lift_bind fun inLen hinLen => ?_
  refine .lift_bind fun outOffset houtOffset => .lift_bind fun outLen houtLen => ?_
  rw [regions, Frame.regionAt_of_operands hinOffset hinLen,
    Frame.regionAt_of_operands houtOffset houtLen]
  -- the two regions are grown over at once, before anything else is added
  refine Splits.growing (fun e he => Frame.memoryCost₂_spacious he) fun e => ?_
  refine splits_add_growth fun own => splits_add fun own => ?_
  split
  · simp only [bind_assoc]
    refine .bind fun found _ => .bind fun isEmpty _ => ?_
    split
    · simp only [bind_assoc]
      exact splits_add fun own => splits_pure own
    · exact splits_pure own
  · exact splits_pure own

end CallScheme

namespace Instruction

variable {c : Context} {f : Frame} {j : Journal} {n : Nat}

/-- The regions of memory that an instruction reads or writes, given the stack. -/
def regions (i : Instruction) (items : List Word) : List (Word × Word) :=
  match i with
  | sha3 | log _ | ret | revert => regionAt items 0 1
  | copy _ => regionAt items 0 2
  | extcodecopy => regionAt items 1 3
  | mload | mstore => items[0]?.toList.map (·, 32)
  | mstore8 => items[0]?.toList.map (·, 1)
  | create | create2 => regionAt items 1 2
  | call scheme => scheme.regions items
  | _ => []

/-- What an instruction pays for itself, apart from what a call gives its callee. -/
def ownCost (i : Instruction) (c : Context) (f : Frame) (j : Journal) : Except ExitReason Nat :=
  match i with
  | call scheme => Prod.fst <$> scheme.ownGas c.config.schedule c.store f j
  | _ => i.cost c f j

theorem exists_ownCost_of_cost {i : Instruction} (h : i.cost c f j = .ok n) :
    ∃ own, i.ownCost c f j = .ok own ∧ own ≤ n := by
  cases i with
  | call scheme =>
    obtain ⟨own, hown, hle⟩ := CallScheme.exists_ownGas_of_cost h
    refine ⟨own.1, ?_, hle⟩
    rw [ownCost, hown]
    rfl
  | _ => exact ⟨n, h, le_rfl⟩

theorem splits_createCost {base : Nat} :
    Splits (f.expansion (regionAt f.stack.items 1 2)) (createCost base f)
      (createCost base f.spacious) := by
  refine .bind fun _ _ => .bind fun offset hoffset => .bind fun len hlen => ?_
  rw [Frame.regionAt_of_operands hoffset hlen]
  exact Frame.splits_withMemory

/-- **The price of an instruction** includes what growing the memory over its regions costs. -/
theorem splits_ownCost (i : Instruction) : Splits (f.expansion (i.regions f.stack.items))
    (i.ownCost c f j) (i.ownCost c f.spacious j) := by
  cases i with
  | sha3 | copy | extcodecopy =>
    refine .lift_bind fun len hlen => .lift_bind fun base _ => .lift_bind fun offset hoffset => ?_
    rw [regions, Frame.regionAt_of_operands hoffset hlen]
    exact Frame.splits_withMemory.lift
  | mload | mstore | mstore8 =>
    refine .lift_bind fun offset hoffset => ?_
    rw [regions, Frame.getElem?_of_operand hoffset]
    exact Frame.splits_withMemory.lift
  | log topics =>
    refine Splits.lift (.bind fun _ _ => .bind fun len hlen => ?_)
    refine .bind fun base _ => .bind fun offset hoffset => ?_
    rw [regions, Frame.regionAt_of_operands hoffset hlen]
    exact Frame.splits_withMemory
  | create => exact splits_createCost.lift
  | create2 => exact .lift_bind fun _ _ => .lift_bind fun base _ => splits_createCost.lift
  | call scheme => exact CallScheme.splits_ownGas
  | ret | revert =>
    refine .lift_bind fun offset hoffset => .lift_bind fun len hlen => ?_
    rw [regions, Frame.regionAt_of_operands hoffset hlen]
    exact Frame.splits_withMemory.lift
  | account which => cases which <;> exact splits_refl _
  | _ => exact splits_refl _

/-- **What an instruction costs** includes the price of growing the memory over its regions. -/
theorem exists_expansion_of_cost {i : Instruction} (h : i.cost c f j = .ok n) :
    ∃ e ≤ n, f.expansion (i.regions f.stack.items) = .ok e := by
  obtain ⟨own, hown, hle⟩ := exists_ownCost_of_cost h
  obtain ⟨base, e, he, -, rfl⟩ := splits_ownCost i own hown
  exact ⟨e, (Nat.le_add_left e base).trans hle, he⟩

end Instruction
end Ethereum
