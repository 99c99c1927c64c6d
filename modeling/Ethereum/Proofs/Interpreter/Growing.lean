/-
# Where memory grows

The price of an instruction is known before its effect, and each reckons on its own which memory
the instruction needs.  Memory that has some size (`Memory.Sized`) keeps it where an instruction reads
and writes within (`Exec.Keeps`), and grows with a region that an instruction names, before anything
fails but exceptionally (`Exec.Covered`).  So an instruction that is paid for grows the memory over
just the regions that the price was for (`Instruction.perform_covered`), also where the two regions
of a call overlap, or where one has no bytes and lies anywhere.
-/

import Mathlib
import Ethereum.Interpreter.Step
import Ethereum.Proofs.Interpreter.Expanding

namespace Ethereum

/-- What a call gives its callee can only fail for want of gas. -/
theorem CallScheme.exists_error_of_gas {s : CallScheme} {schedule : Gas.Schedule} {store : Store}
    {f : Frame} {j : Journal} {available : Nat} {reason : ExitReason}
    (hown : ∃ own, s.ownGas schedule store f j = .ok own)
    (h : s.gas schedule store f j available = .error reason) : ∃ e, reason = .error e := by
  obtain ⟨⟨own, requested⟩, hown⟩ := hown
  rw [gas_eq, hown] at h
  replace h : (do return ⟨own, ← schedule.childCall (available - own) requested⟩ :
    Except ExitReason CallGas) = .error reason := h
  cases hchild : schedule.childCall (available - own) requested with
  | ok child =>
    rw [hchild] at h
    cases h
  | error e =>
    rw [hchild] at h
    cases h
    exact ⟨e, rfl⟩

/-! ## Sizes -/

namespace Memory

variable {m m' : Memory} {words : Nat} {offset len : Word}

/-- So many words are paid for, and nothing was written beyond them. -/
structure Sized (words : Nat) (m : Memory) : Prop where
  size_eq : m.size.toNat = 32 * words
  data_le : m.data.size ≤ 32 * words

theorem sized_empty (limit : Nat) : (empty limit).Sized 0 := ⟨rfl, Nat.le_refl 0⟩

theorem Sized.activeWords_eq (h : m.Sized words) : m.activeWords.toNat = words := by
  rw [toNat_activeWords, h.size_eq, Nat.mul_div_cancel_left words (by decide)]

/-- **Growing the memory** over a region leaves as many words as cover it, or as there were. -/
theorem Sized.resizeOffset (hm : m.Sized words) (h : m.resizeOffset offset len = .ok m') :
    { m with size := m'.size }.Sized (max (wordsOf (offset, len)) words) := by
  have hsize := hm.size_eq
  rcases resizeOffset_cases h with ⟨rfl, hcovered⟩ | ⟨hlen, hlt, hsize'⟩
  · have hle : wordsOf (offset, len) ≤ words := by
      rw [wordsOf]
      split
      · exact Nat.zero_le words
      · rename_i hlen
        have hle := hcovered hlen
        dsimp only
        omega
    rw [max_eq_right hle]
    exact hm
  · have hle : words ≤ wordsOf (offset, len) := by
      rw [wordsOf, if_neg hlen]
      dsimp only
      omega
    rw [max_eq_left hle]
    exact ⟨hsize', hm.data_le.trans (Nat.mul_le_mul_left 32 hle)⟩

theorem size_overwrite (data : Array UInt8) (offset : Nat) (bytes : Bytes) :
    (overwrite data offset bytes).size = data.size := by
  induction bytes generalizing data offset with
  | nil => rfl
  | cons b bytes ih => rw [overwrite, ih, Array.size_setIfInBounds]

/-- **Writing** within the words that are paid for. -/
theorem Sized.write (hm : m.Sized words) {offset : Nat} {bytes : Bytes}
    (h : offset + bytes.length ≤ 32 * words) : (m.write offset bytes).Sized words := by
  unfold Memory.write
  split
  · exact hm
  · refine ⟨hm.size_eq, ?_⟩
    have hle := hm.data_le
    rw [size_overwrite, Array.size_append, Array.size_replicate]
    omega

end Memory

/-- The memory of a frame has so many words, and what the frame takes from a child goes there. -/
structure Frame.Sized (words : Nat) (f : Frame) : Prop where
  memory : f.memory.Sized words
  taken : ∀ offset length, f.resume = some (.call offset length) → offset + length ≤ 32 * words

namespace Frame.Sized

variable {f f' : Frame} {words : Nat}

/-- Only the memory of a frame counts, and what it takes from a child. -/
theorem of_eq (h : f.Sized words) (hmemory : f'.memory = f.memory)
    (hresume : f'.resume = f.resume) : f'.Sized words where
  memory := hmemory ▸ h.memory
  taken := hresume ▸ h.taken

theorem withMemory (h : f.Sized words) {words' : Nat} {memory : Memory} (hle : words ≤ words')
    (hmemory : memory.Sized words') : Frame.Sized words' { f with memory } where
  memory := hmemory
  taken offset length hresume :=
    (h.taken offset length hresume).trans (Nat.mul_le_mul_left 32 hle)

theorem advance (h : f.Sized words) (size : Nat) (control : Control) :
    (f.advance size control).Sized words := by
  cases control with
  | next => exact h.of_eq rfl rfl
  | suspend => exact h.of_eq rfl rfl
  | jump position =>
    rw [Frame.advance]
    split <;> exact h.of_eq rfl rfl

end Frame.Sized

/-! ## Parts of instructions -/

namespace Exec

variable {α β : Type} {words n : Nat} {c : Context} {m : Machine}

/-- The program leaves memory of some size as large as it is. -/
def Keeps (words : Nat) (p : Exec α) : Prop :=
  ∀ c m, m.frame.Sized words → Ends (p c) m fun _ m' => m'.frame.Sized words

theorem Keeps.bind {p : Exec α} {f : α → Exec β} (hp : Keeps words p)
    (hf : ∀ a, Keeps words (f a)) : Keeps words (p >>= f) := by
  intro c m hm
  refine Ends.bind ((hp c m hm).mono fun r m₁ h₁ => ?_)
  cases r with
  | ok a => exact hf a c m₁ h₁
  | error e => exact h₁

theorem keeps_pure (a : α) : Keeps words (pure a) := fun _ _ hm => hm

theorem keeps_throw (e : ExitReason) : Keeps words (throw e : Exec α) := fun _ _ hm => hm

theorem keeps_frame : Keeps words frame := fun _ _ hm => hm

theorem keeps_read : Keeps words (read : Exec Context) := fun _ _ hm => hm

theorem keeps_liftError (x : Except ExitError α) : Keeps words (liftM x : Exec α) := by
  intro c m hm
  cases x <;> exact hm

theorem keeps_emit (e : Event) : Keeps words (emit e) := fun _ _ hm => hm

theorem keeps_modifyFrame {change : Frame → Frame}
    (h : ∀ f : Frame, f.Sized words → (change f).Sized words) :
    Keeps words (modifyFrame change) := fun _ m hm => h m.frame hm

/-- A change that touches neither the memory nor what is taken from a child. -/
theorem keeps_modifyFrame_of_eq {change : Frame → Frame}
    (hmemory : ∀ f, (change f).memory = f.memory) (hresume : ∀ f, (change f).resume = f.resume) :
    Keeps words (modifyFrame change) :=
  keeps_modifyFrame fun f hf => hf.of_eq (hmemory f) (hresume f)

theorem keeps_reading (read : Journal → Store → Except StateError α) :
    Keeps words (reading read) := by
  intro c m hm
  rw [Ends, reading]
  cases read m.journal c.store <;> exact hm

theorem keeps_changing (change : Store → Journal.Change α) : Keeps words (changing change) :=
  fun _ _ hm => Machine.changing_ends (fun _ _ _ => hm) fun _ _ _ => hm

theorem keeps_charge (cost : Nat) : Keeps words (charge cost) := by
  intro c m hm
  rw [Ends, charge, Machine.charge_eq]
  by_cases hle : cost ≤ m.frame.gas
  · rw [if_pos hle]
    exact hm.of_eq rfl rfl
  · rw [if_neg hle]
    exact hm

theorem keeps_addRefund (amount : Int) : Keeps words (fun _ => Machine.addRefund amount) :=
  fun _ _ hm => hm.of_eq rfl rfl

theorem keeps_onStack (change : Stack → Except ExitError Stack) : Keeps words (onStack change) :=
  keeps_frame.bind fun _ => (keeps_liftError _).bind fun _ =>
    keeps_modifyFrame_of_eq (fun _ => rfl) fun _ => rfl

theorem keeps_push (w : Word) : Keeps words (push w) := keeps_onStack (·.push w)

theorem keeps_pop : Keeps words pop := by
  refine keeps_frame.bind fun _ => (keeps_liftError _).bind fun x => ?_
  have hstack : Keeps words (modifyFrame fun f => { f with stack := x.2 }) :=
    keeps_modifyFrame_of_eq (fun _ => rfl) fun _ => rfl
  exact hstack.bind fun _ => keeps_pure _

theorem keeps_jumpTo (w : Word) : Keeps words (jumpTo w) := by
  rw [jumpTo]
  split
  · exact keeps_pure _
  · exact keeps_throw _

theorem keeps_accountField (address : Address) (which : AccountField) :
    Keeps words (accountField address which) := by
  cases which with
  | balance =>
    rw [accountField]
    exact keeps_reading _
  | extcodesize => exact (keeps_reading _).bind fun _ => keeps_pure _
  | extcodehash =>
    refine (keeps_reading _).bind fun found => ?_
    split
    · exact keeps_pure _
    · refine (keeps_reading _).bind fun isEmpty => ?_
      split
      · exact keeps_pure _
      · exact keeps_reading _

theorem keeps_loadSlot : Keeps words loadSlot :=
  keeps_pop.bind fun _ => keeps_frame.bind fun _ => (keeps_reading _).bind fun _ =>
    (keeps_emit _).bind fun _ => keeps_push _

theorem keeps_storeSlot : Keeps words storeSlot :=
  keeps_pop.bind fun _ => keeps_pop.bind fun _ => keeps_frame.bind fun _ =>
    (keeps_reading _).bind fun _ => (keeps_addRefund _).bind fun _ => (keeps_emit _).bind fun _ =>
      keeps_changing _

theorem keeps_selfdestruct : Keeps words selfdestruct :=
  keeps_pop.bind fun _ => keeps_frame.bind fun _ => (keeps_reading _).bind fun _ =>
    (keeps_changing _).bind fun _ => (keeps_changing _).bind fun _ =>
      (keeps_changing _).bind fun _ => keeps_modifyFrame_of_eq (fun _ => rfl) fun _ => rfl

theorem keeps_cannotSpawn (value : Word) : Keeps words (cannotSpawn value) :=
  keeps_frame.bind fun _ => (keeps_reading _).bind fun _ => keeps_read.bind fun _ => keeps_pure _

/-- Going on with a word as a quantity. -/
theorem keeps_quantity_bind {w : Word} {f : Nat → Exec β} (hf : Keeps words (f w.toNat)) :
    Keeps words (quantity w >>= f) := by
  rw [quantity, Word.toQuantity?]
  by_cases h : w.toNat ≤ Quantity.max
  · rw [if_pos h]
    exact hf
  · rw [if_neg h]
    exact fun _ _ hm => hm

/-! ## Memory -/

theorem keeps_writeMemory {offset len : Nat} (bytes : Bytes) (h : offset + len ≤ 32 * words) :
    Keeps words (writeMemory offset bytes len) := by
  refine keeps_frame.bind fun f => ?_
  split
  · refine keeps_modifyFrame fun f hf => hf.withMemory le_rfl (hf.memory.write ?_)
    rwa [Bytes.length_fit]
  · exact keeps_throw _

variable {offset len : Word}

theorem keeps_copyToMemory (h : Memory.wordsOf (offset, len) ≤ words) (dataOffset : Word)
    (data : Bytes) : Keeps words (copyToMemory offset dataOffset len data) := by
  rw [copyToMemory]
  split
  · exact keeps_pure _
  · rename_i hlen
    exact keeps_quantity_bind (keeps_quantity_bind
      (keeps_writeMemory _ (Memory.le_of_wordsOf_le hlen h)))

/-- The code halted exceptionally, or there are so many words. -/
def Covered (words : Nat) (r : Except ExitReason α) (m' : Machine) : Prop :=
  (∀ e, r ≠ .error (.error e)) → m'.frame.Sized words

theorem Covered.sized {a : α} (h : Covered words (.ok a) m) : m.frame.Sized words :=
  h fun e he => by cases he

theorem Keeps.covered {p : Exec α} (hp : Keeps words p) (hm : m.frame.Sized words) :
    Ends (p c) m (Covered words) := (hp c m hm).mono fun _ _ h _ => h

theorem covered_bind_keeps {p : Exec α} {f : α → Exec β} (hp : Ends (p c) m (Covered words))
    (hf : ∀ a, Keeps words (f a)) : Ends ((p >>= f) c) m (Covered words) := by
  refine Ends.bind (hp.mono fun r m₁ h₁ => ?_)
  cases r with
  | ok a => exact (hf a).covered h₁.sized
  | error e =>
    refine fun he => h₁ fun e' heq => he e' ?_
    rw [Except.error.inj heq]

/-- Going on with a computation that halts the code exceptionally where it fails. -/
theorem liftError_bind_ends {x : Except ExitError α} {f : α → Exec β}
    {Q : Except ExitReason β → Machine → Prop} (herror : ∀ e, Q (.error (.error e)) m)
    (hok : ∀ a, x = .ok a → Ends (f a c) m Q) : Ends (((liftM x : Exec α) >>= f) c) m Q := by
  refine Ends.bind ?_
  cases x with
  | ok a => exact hok a rfl
  | error e => exact herror e

/-- **Going on with the top item.** -/
theorem pop_bind_covered {f : Word → Exec β} (hm : m.frame.Sized n)
    (hf : ∀ w m₁, m₁.frame.Sized n → m.frame.stack.items = w :: m₁.frame.stack.items →
      Ends (f w c) m₁ (Covered words)) : Ends ((pop >>= f) c) m (Covered words) := by
  refine Ends.bind (bind_ends_of_ok rfl (liftError_bind_ends (fun e he => absurd rfl (he e))
    fun x hx => bind_ends_of_ok rfl ?_))
  exact hf x.1 _ (hm.of_eq rfl rfl) (Stack.items_of_pop hx)

theorem popMany_bind_covered (k : Nat) {f : List Word → Exec β} (hm : m.frame.Sized n)
    (hf : ∀ ws m₁, m₁.frame.Sized n → Ends (f ws c) m₁ (Covered words)) :
    Ends ((popMany k >>= f) c) m (Covered words) := by
  induction k generalizing m f with
  | zero => exact hf [] m hm
  | succ k ih =>
    simp only [popMany, bind_assoc, pure_bind]
    exact pop_bind_covered hm fun w m₁ hm₁ _ => ih hm₁ fun ws m₂ hm₂ => hf (w :: ws) m₂ hm₂

/-- **Going on after growing the memory.** -/
theorem growMemory_bind_covered {f : Unit → Exec β} (hm : m.frame.Sized n)
    (hf : ∀ m₁, m₁.frame.Sized (max (Memory.wordsOf (offset, len)) n) →
      Ends (f () c) m₁ (Covered words)) :
    Ends ((growMemory offset len >>= f) c) m (Covered words) := by
  refine Ends.bind (bind_ends_of_ok rfl (liftError_bind_ends (fun e he => absurd rfl (he e))
    fun memory hresize => hf _ ?_))
  exact hm.withMemory (Nat.le_max_right _ n) (hm.memory.resizeOffset hresize)

/-- Reading a region of memory leaves as many words as cover it, or as there were. -/
theorem readMemory_covered (hm : m.frame.Sized n) : Ends (readMemory offset len c) m
    (Covered (max (Memory.wordsOf (offset, len)) n)) := by
  refine growMemory_bind_covered hm fun m₁ hm₁ => ?_
  split
  · exact (keeps_pure _).covered hm₁
  · refine Keeps.covered ?_ hm₁
    exact keeps_quantity_bind (keeps_quantity_bind (keeps_frame.bind fun _ => keeps_pure _))

/-- **Going on with what lies in a region of memory** that two operands give, one on top of the
other. -/
theorem readRegion_covered (hm : m.frame.Sized n) {f : Bytes → Exec β}
    (hf : ∀ bytes, Keeps (Memory.wordsOver n (regionAt m.frame.stack.items 0 1)) (f bytes)) :
    Ends ((do
      let offset ← pop
      let len ← pop
      let bytes ← readMemory offset len
      f bytes : Exec β) c) m (Covered (Memory.wordsOver n (regionAt m.frame.stack.items 0 1))) := by
  refine pop_bind_covered hm fun offset m₁ hm₁ hitems => ?_
  refine pop_bind_covered hm₁ fun len m₂ hm₂ hitems₁ => ?_
  rw [hitems, hitems₁] at hf ⊢
  exact covered_bind_keeps (readMemory_covered hm₂) hf

theorem storeWord_covered (hm : m.frame.Sized n) {width : Nat} (hwidth : 0 < width)
    (hle : width ≤ 32) : Ends (storeWord width c) m (Covered (Memory.wordsOver n
      (m.frame.stack.items[0]?.toList.map (·, BitVec.ofNat 256 width)))) := by
  refine pop_bind_covered hm fun offset m₁ hm₁ hitems => ?_
  refine pop_bind_covered hm₁ fun value m₂ hm₂ _ => growMemory_bind_covered hm₂ fun m₃ hm₃ => ?_
  rw [hitems]
  have hfits := Memory.le_of_wordsOf_le (Word.ofNat_ne_zero hwidth hle)
    (Nat.le_max_left (Memory.wordsOf (offset, BitVec.ofNat 256 width)) n)
  rw [Word.toNat_ofNat_of_le hle] at hfits
  exact Keeps.covered (keeps_quantity_bind (keeps_writeMemory _ hfits)) hm₃

theorem loadWord_covered (hm : m.frame.Sized n) : Ends (loadWord c) m
    (Covered (Memory.wordsOver n (m.frame.stack.items[0]?.toList.map (·, 32)))) := by
  refine pop_bind_covered hm fun offset m₁ hm₁ hitems => ?_
  refine growMemory_bind_covered hm₁ fun m₂ hm₂ => ?_
  rw [hitems]
  exact (keeps_quantity_bind (keeps_frame.bind fun _ => keeps_push _)).covered hm₂

theorem copyData_covered (hm : m.frame.Sized n) (source : DataSource) : Ends (copyData source c) m
    (Covered (Memory.wordsOver n (regionAt m.frame.stack.items 0 2))) := by
  refine pop_bind_covered hm fun offset m₁ hm₁ hitems => ?_
  refine pop_bind_covered hm₁ fun dataOffset m₂ hm₂ hitems₁ => ?_
  refine pop_bind_covered hm₂ fun len m₃ hm₃ hitems₂ => bind_ends_of_ok rfl ?_
  rw [hitems, hitems₁, hitems₂]
  have hcopy (data : Bytes) : Ends ((do
      growMemory offset len
      copyToMemory offset dataOffset len data : Exec Unit) c) m₃
      (Covered (Memory.wordsOver n [(offset, len)])) :=
    growMemory_bind_covered hm₃ fun m₄ hm₄ =>
      (keeps_copyToMemory (Nat.le_max_left _ _) _ _).covered hm₄
  dsimp only
  split
  · exact fun he => absurd rfl (he .outOfOffset)
  · exact hcopy _

theorem copyExternalCode_covered (hm : m.frame.Sized n) : Ends (copyExternalCode c) m
    (Covered (Memory.wordsOver n (regionAt m.frame.stack.items 1 3))) := by
  refine pop_bind_covered hm fun address m₁ hm₁ hitems => ?_
  refine pop_bind_covered hm₁ fun offset m₂ hm₂ hitems₁ => ?_
  refine pop_bind_covered hm₂ fun codeOffset m₃ hm₃ hitems₂ => ?_
  refine pop_bind_covered hm₃ fun len m₄ hm₄ hitems₃ => growMemory_bind_covered hm₄ fun m₅ hm₅ => ?_
  rw [hitems, hitems₁, hitems₂, hitems₃]
  refine Keeps.covered ((keeps_reading _).bind fun code => ?_) hm₅
  exact keeps_copyToMemory (Nat.le_max_left _ _) _ _

theorem leaveLog_covered (hm : m.frame.Sized n) (topics : Nat) : Ends (leaveLog topics c) m
    (Covered (Memory.wordsOver n (regionAt m.frame.stack.items 0 1))) := by
  refine pop_bind_covered hm fun offset m₁ hm₁ hitems => ?_
  refine pop_bind_covered hm₁ fun len m₂ hm₂ hitems₁ => ?_
  refine popMany_bind_covered topics hm₂ fun topics m₃ hm₃ => ?_
  rw [hitems, hitems₁]
  exact covered_bind_keeps (readMemory_covered hm₃) fun data =>
    keeps_modifyFrame_of_eq (fun _ => rfl) fun _ => rfl

theorem takeOutput_covered (hm : m.frame.Sized n) : Ends (takeOutput c) m
    (Covered (Memory.wordsOver n (regionAt m.frame.stack.items 0 1))) :=
  readRegion_covered hm fun _ => keeps_modifyFrame_of_eq (fun _ => rfl) fun _ => rfl

/-- A frame that waits for a child whose output it takes to where there is memory. -/
theorem keeps_suspendWith {child : Frame → Message} {resume : Resume}
    (h : ∀ offset length, resume = .call offset length → offset + length ≤ 32 * words) :
    Keeps words (modifyFrame fun f => f.suspendWith (child f) resume) :=
  keeps_modifyFrame fun _ hf => ⟨hf.memory, fun offset length hresume =>
    h offset length (Option.some.inj hresume)⟩

theorem create_covered (hm : m.frame.Sized n) (value offset len : Word) (salt : Option Word) :
    Ends (Exec.create value offset len salt c) m
      (Covered (max (Memory.wordsOf (offset, len)) n)) := by
  refine covered_bind_keeps (readMemory_covered hm) fun initCode => ?_
  refine (keeps_modifyFrame_of_eq (by intro; rfl) (by intro; rfl)).bind fun _ => ?_
  refine (keeps_cannotSpawn value).bind fun refused => ?_
  split
  · exact (keeps_push _).bind fun _ => keeps_pure _
  refine keeps_frame.bind fun f => (keeps_changing _).bind fun nonce => ?_
  refine keeps_read.bind fun c => (keeps_charge _).bind fun _ => ?_
  refine (keeps_suspendWith ?_).bind fun _ => keeps_pure _
  rintro _ _ ⟨⟩

/-- The end of a call that takes its output to where there is memory. -/
theorem keeps_spawnCall (scheme : CallScheme) (value : Word) (target : Address) (input : Bytes)
    (gas : Nat) {start length : Nat} (h : start + length ≤ 32 * words) :
    Keeps words (spawnCall scheme value target input gas (.call start length)) := by
  refine (keeps_modifyFrame_of_eq (by intro; rfl) (by intro; rfl)).bind fun _ => ?_
  refine (keeps_cannotSpawn value).bind fun refused => ?_
  split
  · exact (keeps_modifyFrame_of_eq (by intro; rfl) (by intro; rfl)).bind fun _ =>
      (keeps_push _).bind fun _ => keeps_pure _
  · refine (keeps_reading _).bind fun code => (keeps_suspendWith ?_).bind fun _ => keeps_pure _
    rintro _ _ ⟨⟩
    exact h

/-- Going on with the value operand of a call. -/
theorem popValue_bind_covered (hm : m.frame.Sized n) (scheme : CallScheme) {f : Word → Exec β}
    (hf : ∀ value m₁, m₁.frame.Sized n →
      m.frame.stack.items.drop (scheme.inputPosition - 2) = m₁.frame.stack.items →
      Ends (f value c) m₁ (Covered words)) :
    Ends ((if scheme.takesValue then pop >>= f else pure 0 >>= f) c) m (Covered words) := by
  rw [CallScheme.inputPosition] at hf
  by_cases htakes : scheme.takesValue
  · rw [if_pos htakes]
    rw [if_pos htakes] at hf
    refine pop_bind_covered hm fun value m₁ hm₁ hitems => hf value m₁ hm₁ ?_
    rw [hitems]
    rfl
  · rw [if_neg htakes]
    rw [if_neg htakes] at hf
    exact bind_ends_of_ok rfl (hf 0 m hm rfl)

/-- **A call** grows the memory over the region of its output, then over that of its input. -/
theorem call_covered (scheme : CallScheme) (hm : m.frame.Sized n)
    (hown : ∃ own, scheme.ownGas c.config.schedule c.store m.frame m.journal = .ok own) :
    Ends (Exec.call scheme c) m (Covered (Memory.wordsOver n
      (scheme.regions m.frame.stack.items))) := by
  refine bind_ends_of_ok rfl (bind_ends_of_ok rfl (bind_ends_of_ok rfl ?_))
  refine lift_bind_ends (fun reason hreason => ?_) fun split _ => ?_
  · obtain ⟨e, rfl⟩ := CallScheme.exists_error_of_gas hown hreason
    exact fun he => absurd rfl (he e)
  refine pop_bind_covered hm fun w m₁ hm₁ hitems => ?_
  refine pop_bind_covered hm₁ fun target m₂ hm₂ hitems₁ => ?_
  refine popValue_bind_covered hm₂ scheme fun value m₃ hm₃ hitems₂ => ?_
  refine pop_bind_covered hm₃ fun inOffset m₄ hm₄ hitems₃ => ?_
  refine pop_bind_covered hm₄ fun inLen m₅ hm₅ hitems₄ => ?_
  refine pop_bind_covered hm₅ fun outOffset m₆ hm₆ hitems₅ => ?_
  refine pop_bind_covered hm₆ fun outLen m₇ hm₇ hitems₆ => ?_
  have hdrop : m.frame.stack.items.drop scheme.inputPosition =
      inOffset :: inLen :: outOffset :: outLen :: m₇.frame.stack.items := by
    rw [← hitems₆, ← hitems₅, ← hitems₄, ← hitems₃, ← hitems₂, hitems, hitems₁]
    cases scheme <;> rfl
  rw [CallScheme.regions_of_drop hdrop]
  refine growMemory_bind_covered hm₇ fun m₈ hm₈ => ?_
  refine covered_bind_keeps (readMemory_covered hm₈) fun input => ?_
  dsimp only
  split
  · exact keeps_spawnCall scheme value _ input _ (Nat.zero_le _)
  · rename_i hlen
    refine keeps_quantity_bind (keeps_quantity_bind (keeps_spawnCall scheme value _ input _ ?_))
    exact Memory.le_of_wordsOf_le hlen ((Nat.le_max_left _ n).trans (Nat.le_max_right _ _))

/-- Going on with the region of a creation, which two operands under the value give. -/
theorem popRegion_bind_covered (hm : m.frame.Sized n) {f : Word → Word → Word → Exec β}
    (hf : ∀ value offset len m₁, m₁.frame.Sized n →
      Ends (f value offset len c) m₁ (Covered (max (Memory.wordsOf (offset, len)) n))) :
    Ends ((do
      let value ← pop
      let offset ← pop
      let len ← pop
      f value offset len : Exec β) c) m
      (Covered (Memory.wordsOver n (regionAt m.frame.stack.items 1 2))) := by
  refine pop_bind_covered hm fun value m₁ hm₁ hitems => ?_
  refine pop_bind_covered hm₁ fun offset m₂ hm₂ hitems₁ => ?_
  refine pop_bind_covered hm₂ fun len m₃ hm₃ hitems₂ => ?_
  rw [hitems, hitems₁, hitems₂]
  exact hf value offset len m₃ hm₃

theorem keeps_next {p : Exec Unit} (hp : Keeps words p) :
    Keeps words (p >>= fun _ => pure Control.next) := hp.bind fun _ => keeps_pure _

theorem covered_next {p : Exec Unit} (hp : Ends (p c) m (Covered words)) :
    Ends ((p >>= fun _ => pure Control.next) c) m (Covered words) :=
  covered_bind_keeps hp fun _ => keeps_pure _

end Exec

/-! ## Instructions -/

namespace Instruction

variable {c : Context} {m : Machine} {words : Nat}

open Exec

/-- **An instruction grows the memory** over the regions that it names, before anything of it fails
but exceptionally. -/
theorem execute_covered (i : Instruction) (hm : m.frame.Sized words)
    (hown : ∀ scheme, i = call scheme →
      ∃ own, scheme.ownGas c.config.schedule c.store m.frame m.journal = .ok own) :
    Ends (i.execute c) m (Covered (Memory.wordsOver words (i.regions m.frame.stack.items))) := by
  -- only what names a region grows the memory; everything else keeps it
  cases i with
  | stop => exact Keeps.covered (keeps_throw _) hm
  | unary op => exact Keeps.covered (keeps_pop.bind fun _ => keeps_next (keeps_push _)) hm
  | binary op =>
    exact Keeps.covered (keeps_pop.bind fun _ => keeps_pop.bind fun _ =>
      keeps_next (keeps_push _)) hm
  | ternary op =>
    exact Keeps.covered (keeps_pop.bind fun _ => keeps_pop.bind fun _ => keeps_pop.bind fun _ =>
      keeps_next (keeps_push _)) hm
  | sha3 => exact readRegion_covered hm fun _ => keeps_next (keeps_push _)
  | field which => exact Keeps.covered (keeps_frame.bind fun _ => keeps_next (keeps_push _)) hm
  | account which =>
    exact Keeps.covered (keeps_pop.bind fun _ => (keeps_accountField _ _).bind fun _ =>
      keeps_next (keeps_push _)) hm
  | calldataload =>
    exact Keeps.covered (keeps_pop.bind fun _ => keeps_frame.bind fun _ =>
      keeps_next (keeps_push _)) hm
  | copy source => exact covered_next (copyData_covered hm source)
  | extcodecopy => exact covered_next (copyExternalCode_covered hm)
  | blockhash =>
    exact Keeps.covered (keeps_pop.bind fun _ => keeps_frame.bind fun _ =>
      keeps_next (keeps_push _)) hm
  | pop => exact Keeps.covered (keeps_pop.bind fun _ => keeps_pure _) hm
  | mload => exact covered_next (loadWord_covered hm)
  | mstore => exact covered_next (storeWord_covered hm (by decide) le_rfl)
  | mstore8 => exact covered_next (storeWord_covered hm Nat.one_pos (by decide))
  | sload => exact Keeps.covered (keeps_next keeps_loadSlot) hm
  | sstore => exact Keeps.covered (keeps_next keeps_storeSlot) hm
  | jump => exact Keeps.covered (keeps_pop.bind fun _ => keeps_jumpTo _) hm
  | jumpi =>
    refine Keeps.covered (keeps_pop.bind fun _ => keeps_pop.bind fun _ => ?_) hm
    dsimp only
    split
    · exact keeps_jumpTo _
    · exact keeps_pure _
  | jumpdest => exact Keeps.covered (keeps_pure _) hm
  | push k => exact Keeps.covered (keeps_frame.bind fun _ => keeps_next (keeps_push _)) hm
  | dup k => exact Keeps.covered (keeps_next (keeps_onStack _)) hm
  | swap k => exact Keeps.covered (keeps_next (keeps_onStack _)) hm
  | log topics => exact covered_next (leaveLog_covered hm topics)
  | create =>
    exact popRegion_bind_covered hm fun value offset len m₁ hm₁ =>
      create_covered hm₁ value offset len none
  | create2 =>
    exact popRegion_bind_covered hm fun value offset len m₁ hm₁ =>
      pop_bind_covered hm₁ fun salt m₂ hm₂ _ => create_covered hm₂ value offset len (some salt)
  | call scheme => exact call_covered scheme hm (hown scheme rfl)
  | ret => exact covered_bind_keeps (takeOutput_covered hm) fun _ => keeps_throw _
  | revert => exact covered_bind_keeps (takeOutput_covered hm) fun _ => keeps_throw _
  | invalid => exact Keeps.covered (keeps_throw _) hm
  | selfdestruct => exact Keeps.covered (keeps_selfdestruct.bind fun _ => keeps_throw _) hm

/-- What an instruction is charged, if it can be paid for. -/
def charged? (i : Instruction) (c : Context) (m : Machine) : Option Nat :=
  (i.cost c m.frame m.journal).toOption.filter (· ≤ m.frame.gas)

theorem charged?_eq_some {i : Instruction} {cost : Nat} : i.charged? c m = some cost ↔
    i.cost c m.frame m.journal = .ok cost ∧ cost ≤ m.frame.gas := by
  rw [charged?, Option.filter_eq_some_iff]
  cases i.cost c m.frame m.journal <;> simp [Except.toOption]

/-- **An instruction that can be paid for** grows the memory over the regions that it names, and one
that cannot leaves it as it is. -/
theorem perform_covered (i : Instruction) (hm : m.frame.Sized words) :
    Ends (i.perform c) m (Covered (Memory.wordsOver words
      (if (i.charged? c m).isSome then i.regions m.frame.stack.items else []))) := by
  refine perform_ends_of_price (fun reason _ hcost _ => ?_)
    (fun _ _ _ _ he => absurd rfl (he .outOfGas)) fun cost t hcost hle => ?_
  · have hunpaid : i.charged? c m = none := by
      rw [charged?, hcost]
      rfl
    rw [hunpaid]
    exact hm
  · rw [charged?_eq_some.mpr ⟨hcost, hle⟩]
    refine i.execute_covered (hm.of_eq rfl rfl) ?_
    rintro scheme rfl
    obtain ⟨own, hown, -⟩ := CallScheme.exists_ownGas_of_cost hcost
    exact ⟨own, hown⟩

end Instruction

end Ethereum
