/-
# Sound machines

A machine is sound if its journal is and its frame knows only data (`Machine.Sound`).  What
instructions are made of, programs that pop and push, grow memory, copy, and read and change the
state, neither fails fatally on a sound machine nor leaves one that is not sound (`Exec.Safe`), as
long as memory is accessed where it was paid for.
-/

import Mathlib
import Ethereum.Proofs.Interpreter.Addressing
import Ethereum.Proofs.State.Sound

namespace Ethereum

/-! ## Sound machines -/

/-- What a frame knows is among the data, and its memory is small. -/
structure Frame.Sound (data : List Bytes) (f : Frame) : Prop where
  recipient_known : f.message.recipient.Known data
  contract_known : f.message.contract.Known data
  memory : f.memory.Tame
  destroyed : ∀ address ∈ f.selfDestructs, address.Known data

/-- Only the message, the memory and the deletions of a frame count. -/
theorem Frame.Sound.of_eq {data : List Bytes} {f f' : Frame} (h : f.Sound data)
    (hmessage : f'.message = f.message) (hmemory : f'.memory = f.memory)
    (hdestroyed : f'.selfDestructs = f.selfDestructs) : f'.Sound data where
  recipient_known := hmessage ▸ h.recipient_known
  contract_known := hmessage ▸ h.contract_known
  memory := hmemory ▸ h.memory
  destroyed := hdestroyed ▸ h.destroyed

/-- The journal is sound, and so is the frame. -/
structure Machine.Sound (data : List Bytes) (store : Store) (m : Machine) : Prop where
  journal : m.journal.Sound data store
  frame : m.frame.Sound data

namespace Exec

variable {α β : Type} {data : List Bytes} {c : Context} {m : Machine}

/-- The program did not fail fatally and left a sound machine, and if it returned, `Q` holds. -/
def Safe (data : List Bytes) (store : Store) (Q : α → Machine → Prop) (r : Except ExitReason α)
    (m' : Machine) : Prop :=
  m'.Sound data store ∧ match r with
    | .ok a => Q a m'
    | .error reason => reason.isFatal = false

variable {P : α → Machine → Prop} {Q : β → Machine → Prop}

/-- **Going on after a safe program.** -/
theorem safe_bind {p : Exec α} {f : α → Exec β} (hp : Ends (p c) m (Safe data c.store P))
    (hf : ∀ a m₁, m₁.Sound data c.store → P a m₁ → Ends (f a c) m₁ (Safe data c.store Q)) :
    Ends ((p >>= f) c) m (Safe data c.store Q) := by
  refine Ends.bind (hp.mono ?_)
  rintro (e | a) m₁ ⟨hm₁, h⟩
  · exact ⟨hm₁, h⟩
  · exact hf a m₁ hm₁ h

theorem safe_pure (hm : m.Sound data c.store) {a : α} (h : P a m) :
    Ends ((pure a : Exec α) c) m (Safe data c.store P) := ⟨hm, h⟩

theorem safe_throw (hm : m.Sound data c.store) {e : ExitReason} (he : e.isFatal = false) :
    Ends ((throw e : Exec α) c) m (Safe data c.store P) := ⟨hm, he⟩

/-- Going on with what a computation gives that may fail, but not fatally. -/
theorem safe_lift_bind (hm : m.Sound data c.store) {x : Except ExitError α} {f : α → Exec β}
    (hf : ∀ a, x = .ok a → Ends (f a c) m (Safe data c.store Q)) :
    Ends (((liftM x : Exec α) >>= f) c) m (Safe data c.store Q) := by
  cases x with
  | ok a => exact bind_ends_of_ok rfl (hf a rfl)
  | error e => exact ⟨hm, rfl⟩

theorem safe_reading_bind (hm : m.Sound data c.store)
    {read : Journal → Store → Except StateError α} (hread : Journal.Answered data read)
    {f : α → Exec β} (hf : ∀ a, Ends (f a c) m (Safe data c.store Q)) :
    Ends ((reading read >>= f) c) m (Safe data c.store Q) := by
  obtain ⟨a, ha⟩ := hread _ _ hm.journal
  exact bind_ends_of_ok (reading_eq ha) (hf a)

theorem safe_changing_bind (hm : m.Sound data c.store) {change : Store → Journal.Change α}
    (hchange : Journal.Succeeds data change) {f : α → Exec β}
    (hf : ∀ a j, j.Sound data c.store → Ends (f a c) { m with journal := j } (Safe data c.store Q)) :
    Ends ((changing change >>= f) c) m (Safe data c.store Q) := by
  obtain ⟨a, j, hj, hsound⟩ := hchange _ _ hm.journal
  exact bind_ends_of_ok (Machine.changing_eq hj) (hf a j hsound)

theorem changing_safe (hm : m.Sound data c.store) {change : Store → Journal.Change α}
    (hchange : Journal.Succeeds data change) :
    Ends (changing change c) m (Safe data c.store fun _ _ => True) := by
  rw [← bind_pure (changing change)]
  exact safe_changing_bind hm hchange fun _ j hj => ⟨⟨hj, hm.frame⟩, trivial⟩

/-! ## The stack -/

theorem Sound.withStack (hm : m.Sound data c.store) (stack : Stack) :
    Machine.Sound data c.store { m with frame := { m.frame with stack } } :=
  ⟨hm.journal, hm.frame.of_eq rfl rfl rfl⟩

/-- **Going on with the top item.** -/
theorem safe_pop_bind (hm : m.Sound data c.store) {f : Word → Exec β}
    (hf : ∀ w m₁, m₁.Sound data c.store → m.frame.stack.items = w :: m₁.frame.stack.items →
      0 < m₁.frame.stack.room → Ends (f w c) m₁ (Safe data c.store Q)) :
    Ends ((pop >>= f) c) m (Safe data c.store Q) := by
  refine safe_bind (P := fun w m₁ => m.frame.stack.items = w :: m₁.frame.stack.items ∧
    0 < m₁.frame.stack.room) ?_ fun w m₁ hm₁ h₁ => hf w m₁ hm₁ h₁.1 h₁.2
  refine bind_ends_of_ok rfl (safe_lift_bind hm fun x hx => bind_ends_of_ok rfl ?_)
  refine safe_pure (Sound.withStack hm x.2) ⟨Stack.items_of_pop hx, ?_⟩
  rw [Stack.pop] at hx
  split at hx
  · cases hx
  · cases hx
    exact Nat.succ_pos _

/-- Pushing a word may fail, but not fatally. -/
theorem push_safe (hm : m.Sound data c.store) (w : Word) :
    Ends (push w c) m (Safe data c.store fun _ _ => True) :=
  bind_ends_of_ok rfl (safe_lift_bind hm fun stack _ => ⟨Sound.withStack hm stack, trivial⟩)

theorem popMany_safe (hm : m.Sound data c.store) (n : Nat) :
    Ends (popMany n c) m (Safe data c.store fun _ _ => True) := by
  induction n generalizing m with
  | zero => exact safe_pure hm trivial
  | succ n ih =>
    refine safe_pop_bind hm fun w m₁ hm₁ _ _ => safe_bind (ih hm₁) fun ws m₂ hm₂ _ => ?_
    exact safe_pure hm₂ trivial

/-! ## The memory -/

/-- The stack is the same. -/
def SameStack (m m' : Machine) : Prop := m'.frame.stack = m.frame.stack

theorem Sound.withMemory (hm : m.Sound data c.store) {memory : Memory} (h : memory.Tame) :
    Machine.Sound data c.store { m with frame := { m.frame with memory } } :=
  ⟨hm.journal, hm.frame.recipient_known, hm.frame.contract_known, h, hm.frame.destroyed⟩

variable {offset len : Word}

theorem quantity_eq {w : Word} (h : w.toNat ≤ Quantity.max) : quantity w = pure w.toNat := by
  rw [quantity, Memory.toQuantity?_of_le h]

theorem growMemory_safe (hm : m.Sound data c.store) (h : Memory.Reached offset len) :
    Ends (growMemory offset len c) m (Safe data c.store fun _ m' => SameStack m m') :=
  bind_ends_of_ok rfl (safe_lift_bind hm fun _ hresize =>
    ⟨Sound.withMemory hm (hm.frame.memory.resizeOffset h hresize), rfl⟩)

theorem writeMemory_safe (hm : m.Sound data c.store) {start length : Nat}
    (h : length = 0 ∨ start + length ≤ Quantity.max) (bytes : Bytes) :
    Ends (writeMemory start bytes length c) m (Safe data c.store fun _ _ => True) := by
  refine bind_ends_of_ok rfl ?_
  rw [if_pos (hm.frame.memory.admits h)]
  exact ⟨Sound.withMemory hm (hm.frame.memory.write _ _), trivial⟩

theorem copyToMemory_safe (hm : m.Sound data c.store) (h : Memory.Reached offset len)
    (dataOffset : Word) (bytes : Bytes) :
    Ends (copyToMemory offset dataOffset len bytes c) m (Safe data c.store fun _ _ => True) := by
  rw [copyToMemory]
  by_cases hlen : len = 0
  · rw [if_pos hlen]
    exact safe_pure hm trivial
  · have hle := h.le_max hlen
    rw [if_neg hlen, quantity_eq (by omega), quantity_eq (by omega)]
    exact writeMemory_safe hm (.inr hle) _

theorem readMemory_safe (hm : m.Sound data c.store) (h : Memory.Reached offset len) :
    Ends (readMemory offset len c) m (Safe data c.store fun _ m' => SameStack m m') := by
  refine safe_bind (growMemory_safe hm h) fun _ m₁ hm₁ hstack => ?_
  by_cases hlen : len = 0
  · rw [if_pos hlen]
    exact safe_pure hm₁ hstack
  · have hle := h.le_max hlen
    rw [if_neg hlen, quantity_eq (by omega), quantity_eq (by omega)]
    exact safe_pure hm₁ hstack

theorem storeWord_safe (hm : m.Sound data c.store) {width : Nat} (hwidth : 0 < width)
    (hle : width ≤ 32)
    (hreached : ∀ w ∈ m.frame.stack.items[0]?, Memory.Reached w (BitVec.ofNat 256 width)) :
    Ends (storeWord width c) m (Safe data c.store fun _ _ => True) := by
  refine safe_pop_bind hm fun offset m₁ hm₁ hitems _ => ?_
  refine safe_pop_bind hm₁ fun value m₂ hm₂ _ _ => ?_
  have hoffset := hreached offset (by rw [hitems]; rfl)
  have hfits := hoffset.le_max (Word.ofNat_ne_zero hwidth hle)
  rw [Word.toNat_ofNat_of_le hle] at hfits
  refine safe_bind (growMemory_safe hm₂ hoffset) fun _ m₃ hm₃ _ => ?_
  rw [quantity_eq (by omega)]
  exact writeMemory_safe hm₃ (.inr hfits) _

theorem loadWord_safe (hm : m.Sound data c.store)
    (hreached : ∀ w ∈ m.frame.stack.items[0]?, Memory.Reached w 32) :
    Ends (loadWord c) m (Safe data c.store fun _ _ => True) := by
  refine safe_pop_bind hm fun offset m₁ hm₁ hitems _ => ?_
  have hoffset := hreached offset (by rw [hitems]; rfl)
  have hfits := hoffset.le_max (by decide)
  refine safe_bind (growMemory_safe hm₁ hoffset) fun _ m₂ hm₂ _ => ?_
  rw [quantity_eq (by omega)]
  exact bind_ends_of_ok rfl (bind_ends_of_ok rfl (push_safe hm₂ _))

/-- **Going on with a region** of memory that two operands give, one on top of the other. -/
theorem safe_popRegion_bind (hm : m.Sound data c.store)
    (hreached : ∀ region ∈ regionAt m.frame.stack.items 0 1, Memory.Reached region.1 region.2)
    {f : Word → Word → Exec β}
    (hf : ∀ offset len m₁, m₁.Sound data c.store → Memory.Reached offset len →
      0 < m₁.frame.stack.room → Ends (f offset len c) m₁ (Safe data c.store Q)) :
    Ends ((do
      let offset ← pop
      let len ← pop
      f offset len : Exec β) c) m (Safe data c.store Q) := by
  refine safe_pop_bind hm fun offset m₁ hm₁ hitems _ => ?_
  refine safe_pop_bind hm₁ fun len m₂ hm₂ hitems₁ hroom => hf offset len m₂ hm₂ ?_ hroom
  rw [hitems, hitems₁] at hreached
  exact hreached (offset, len) (mem_regionAt.mpr ⟨rfl, rfl⟩)

theorem takeOutput_safe (hm : m.Sound data c.store)
    (hreached : ∀ region ∈ regionAt m.frame.stack.items 0 1, Memory.Reached region.1 region.2) :
    Ends (takeOutput c) m (Safe data c.store fun _ _ => True) := by
  refine safe_popRegion_bind hm hreached fun offset len m₁ hm₁ hregion _ => ?_
  refine safe_bind (readMemory_safe hm₁ hregion) fun output m₂ hm₂ _ => ?_
  exact ⟨⟨hm₂.journal, hm₂.frame.of_eq rfl rfl rfl⟩, trivial⟩

theorem copyData_safe (hm : m.Sound data c.store) (source : DataSource)
    (hreached : ∀ region ∈ regionAt m.frame.stack.items 0 2, Memory.Reached region.1 region.2) :
    Ends (copyData source c) m (Safe data c.store fun _ _ => True) := by
  refine safe_pop_bind hm fun offset m₁ hm₁ hitems _ => ?_
  refine safe_pop_bind hm₁ fun dataOffset m₂ hm₂ hitems₁ _ => ?_
  refine safe_pop_bind hm₂ fun len m₃ hm₃ hitems₂ _ => ?_
  have hregion := hreached (offset, len)
    (mem_regionAt.mpr (by rw [hitems, hitems₁, hitems₂]; exact ⟨rfl, rfl⟩))
  refine bind_ends_of_ok rfl ?_
  dsimp only
  split
  · exact safe_bind (P := fun _ _ => False) (safe_throw hm₃ rfl) fun _ _ _ h => h.elim
  · exact safe_bind (growMemory_safe hm₃ hregion) fun _ m₄ hm₄ _ =>
      copyToMemory_safe hm₄ hregion _ _

theorem copyExternalCode_safe (hm : m.Sound data c.store)
    (hknown : ∀ w ∈ m.frame.stack.items[0]?, (Word.toAddress w).Known data)
    (hreached : ∀ region ∈ regionAt m.frame.stack.items 1 3, Memory.Reached region.1 region.2) :
    Ends (copyExternalCode c) m (Safe data c.store fun _ _ => True) := by
  refine safe_pop_bind hm fun address m₁ hm₁ hitems _ => ?_
  refine safe_pop_bind hm₁ fun offset m₂ hm₂ hitems₁ _ => ?_
  refine safe_pop_bind hm₂ fun codeOffset m₃ hm₃ hitems₂ _ => ?_
  refine safe_pop_bind hm₃ fun len m₄ hm₄ hitems₃ _ => ?_
  have hregion := hreached (offset, len)
    (mem_regionAt.mpr (by rw [hitems, hitems₁, hitems₂, hitems₃]; exact ⟨rfl, rfl⟩))
  have haddress := hknown address (by rw [hitems]; rfl)
  refine safe_bind (growMemory_safe hm₄ hregion) fun _ m₅ hm₅ _ => ?_
  exact safe_reading_bind hm₅ (Journal.answered_code haddress) fun code =>
    copyToMemory_safe hm₅ hregion _ _

theorem leaveLog_safe (hm : m.Sound data c.store) (topics : Nat)
    (hreached : ∀ region ∈ regionAt m.frame.stack.items 0 1, Memory.Reached region.1 region.2) :
    Ends (leaveLog topics c) m (Safe data c.store fun _ _ => True) := by
  refine safe_popRegion_bind hm hreached fun offset len m₁ hm₁ hregion _ => ?_
  refine safe_bind (popMany_safe hm₁ topics) fun topics m₂ hm₂ _ => ?_
  refine safe_bind (readMemory_safe hm₂ hregion) fun output m₃ hm₃ _ => ?_
  exact ⟨⟨hm₃.journal, hm₃.frame.of_eq rfl rfl rfl⟩, trivial⟩

/-! ## The state -/

theorem accountField_safe (hm : m.Sound data c.store) {address : Address}
    (haddress : address.Known data) (which : AccountField) :
    Ends (accountField address which c) m (Safe data c.store fun _ _ => True) := by
  cases which with
  | balance =>
    rw [accountField, ← bind_pure (reading _)]
    exact safe_reading_bind hm (Journal.answered_balance haddress) fun _ => safe_pure hm trivial
  | extcodesize =>
    exact safe_reading_bind hm (Journal.answered_code haddress) fun _ => safe_pure hm trivial
  | extcodehash =>
    refine safe_reading_bind hm (Journal.answered_exists haddress) fun found => ?_
    split
    · exact safe_pure hm trivial
    · refine safe_reading_bind hm (Journal.answered_isEmpty haddress) fun isEmpty => ?_
      split
      · exact safe_pure hm trivial
      · rw [← bind_pure (reading _)]
        exact safe_reading_bind hm (Journal.answered_codeHash haddress) fun _ =>
          safe_pure hm trivial

theorem loadSlot_safe (hm : m.Sound data c.store)
    (hknown : ∀ w ∈ m.frame.stack.items[0]?, Word.toBytes w ∈ data) :
    Ends (loadSlot c) m (Safe data c.store fun _ _ => True) := by
  refine safe_pop_bind hm fun key m₁ hm₁ hitems _ => bind_ends_of_ok rfl ?_
  have hkey := hknown key (by rw [hitems]; rfl)
  refine safe_reading_bind hm₁ (Journal.answered_slot hm₁.frame.recipient_known hkey) fun value => ?_
  refine bind_ends_of_ok rfl (push_safe ?_ _)
  exact ⟨hm₁.journal, hm₁.frame⟩

theorem storeSlot_safe (hm : m.Sound data c.store)
    (hknown : ∀ w ∈ m.frame.stack.items[0]?, Word.toBytes w ∈ data) :
    Ends (storeSlot c) m (Safe data c.store fun _ _ => True) := by
  refine safe_pop_bind hm fun key m₁ hm₁ hitems _ => ?_
  refine safe_pop_bind hm₁ fun value m₂ hm₂ _ _ => bind_ends_of_ok rfl ?_
  have hkey := hknown key (by rw [hitems]; rfl)
  refine safe_reading_bind hm₂ (Journal.answered_slot hm₂.frame.recipient_known hkey) fun current => ?_
  refine bind_ends_of_ok rfl (bind_ends_of_ok rfl (changing_safe ?_ ?_))
  · exact ⟨hm₂.journal, hm₂.frame.of_eq rfl rfl rfl⟩
  · exact Journal.succeeds_setSlot hm₂.frame.recipient_known hkey value

theorem selfdestruct_safe (hm : m.Sound data c.store)
    (hknown : ∀ w ∈ m.frame.stack.items[0]?, (Word.toAddress w).Known data) :
    Ends (selfdestruct c) m (Safe data c.store fun _ _ => True) := by
  refine safe_pop_bind hm fun w m₁ hm₁ hitems _ => bind_ends_of_ok rfl ?_
  have hbeneficiary := hknown w (by rw [hitems]; rfl)
  have hown := hm₁.frame.recipient_known
  refine safe_reading_bind hm₁ (Journal.answered_balance hown) fun balance => ?_
  refine safe_changing_bind hm₁ (Journal.succeeds_getOrCreate hbeneficiary) fun _ j₂ hj₂ => ?_
  have hm₂ : Machine.Sound data c.store { m₁ with journal := j₂ } := ⟨hj₂, hm₁.frame⟩
  refine safe_changing_bind hm₂ (Journal.succeeds_incrementBalance hbeneficiary balance)
    fun _ j₃ hj₃ => ?_
  have hm₃ : Machine.Sound data c.store { m₁ with journal := j₃ } := ⟨hj₃, hm₁.frame⟩
  refine safe_changing_bind hm₃ (Journal.succeeds_decrementBalance hown balance)
    fun _ j₄ hj₄ => ?_
  refine ⟨⟨hj₄, hown, hm₁.frame.contract_known, hm₁.frame.memory, fun address haddress => ?_⟩,
    trivial⟩
  rcases Std.ExtTreeSet.mem_insert.mp haddress with heq | hmem
  · exact Std.compare_eq_iff_eq.mp heq ▸ hown
  · exact hm₁.frame.destroyed address hmem

end Exec
end Ethereum
