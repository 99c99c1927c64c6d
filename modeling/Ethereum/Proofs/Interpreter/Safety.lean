/-
# Instructions on sound machines do not fail fatally

On a sound machine no price fails fatally (`Instruction.mild_cost`), and an instruction that was
paid for neither fails fatally nor leaves a machine that is not sound (`Instruction.execute_safe`).
A frame that comes to wait has a child to run, a record of how it goes on, and room on its stack
for what the child leaves there (`Frame.Waits`).  So steps do not fail at all (`Run.steps_safe`).
-/

import Mathlib
import Ethereum.Proofs.Interpreter.Resuming
import Ethereum.Proofs.Interpreter.Sound

namespace Ethereum

/-! ## Prices -/

/-- The computation does not fail fatally. -/
def Mild {α : Type} (x : Except ExitReason α) : Prop := ∀ e, x ≠ .error (.fatal e)

section
variable {α β : Type} {x : Except ExitReason α} {f : α → Except ExitReason β}

theorem mild_ok (a : α) : Mild (.ok a : Except ExitReason α) := fun e h => by cases h

theorem Mild.bind (hx : Mild x) (hf : ∀ a, x = .ok a → Mild (f a)) : Mild (x >>= f) := by
  cases x with
  | ok a => exact hf a rfl
  | error reason =>
    intro e h
    cases h
    exact hx e rfl

theorem mild_lift (x : Except ExitError α) : Mild (liftM x : Except ExitReason α) := by
  cases x with
  | ok a => exact mild_ok a
  | error error =>
    intro e h
    cases h

/-- Going on with a price or an operand. -/
theorem mild_lift_bind {x : Except ExitError α} (hf : ∀ a, x = .ok a → Mild (f a)) :
    Mild ((liftM x : Except ExitReason α) >>= f) :=
  (mild_lift x).bind fun a ha => hf a (liftM_eq_ok ha)

/-- Going on with what a sound journal answers. -/
theorem mild_answered_bind {data : List Bytes} {store : Store} {j : Journal}
    {read : Journal → Store → Except StateError α} (hread : Journal.Answered data read)
    (hj : j.Sound data store) (hf : ∀ a, Mild (f a)) :
    Mild ((liftM (read j store) : Except ExitReason α) >>= f) := by
  obtain ⟨a, ha⟩ := hread store j hj
  rw [ha]
  exact hf a

end

namespace CallScheme

variable {s : CallScheme} {data : List Bytes} {schedule : Gas.Schedule} {store : Store} {f : Frame}
  {j : Journal}

theorem mild_gas (hj : j.Sound data store)
    (hknown : ∀ w ∈ f.stack.items[1]?, (Word.toAddress w).Known data) (available : Nat) :
    Mild (s.gas schedule store f j available) := by
  refine mild_lift_bind fun requested _ => mild_lift_bind fun target htarget => ?_
  have htarget := hknown target (Frame.getElem?_of_operand htarget)
  refine mild_lift_bind fun value _ => mild_lift_bind fun inOffset _ => ?_
  refine mild_lift_bind fun inLen _ => mild_lift_bind fun outOffset _ => ?_
  refine mild_lift_bind fun outLen _ => mild_lift_bind fun memory _ => ?_
  refine mild_lift_bind fun own _ => mild_lift_bind fun own _ => ?_
  have hrest (own : Nat) : Mild (do
      return ⟨own, ← schedule.childCall (available - own) requested⟩ : Except ExitReason CallGas) :=
    mild_lift_bind fun _ _ => mild_ok _
  dsimp only
  split
  · refine mild_answered_bind (Journal.answered_exists htarget) hj fun found => ?_
    refine mild_answered_bind (Journal.answered_isEmpty htarget) hj fun isEmpty => ?_
    split
    · exact mild_lift_bind fun _ _ => hrest _
    · exact hrest _
  · exact hrest _

theorem mild_cost (hj : j.Sound data store)
    (hknown : ∀ w ∈ f.stack.items[1]?, (Word.toAddress w).Known data) :
    Mild (s.cost schedule store f j) := by
  have hrest : Mild (do
      let gas ← s.gas schedule store f j f.gas
      Gas.add gas.own gas.child : Except ExitReason Nat) :=
    (mild_gas hj hknown _).bind fun _ _ => mild_lift _
  rw [CallScheme.cost]
  dsimp only
  split
  · refine mild_lift_bind fun value _ => ?_
    split
    · intro e h
      cases h
    · exact hrest
  · exact hrest

end CallScheme

namespace Instruction

variable {data : List Bytes} {c : Context} {m : Machine}

/-- The bytes that an instruction hashes, given the stack: the address or the key that is an
operand. -/
def hashed (i : Instruction) (items : List Word) : List Bytes :=
  match i with
  | account _ | extcodecopy | selfdestruct =>
    items[0]?.toList.map fun w => Address.toBytes (Word.toAddress w)
  | sload | sstore => items[0]?.toList.map Word.toBytes
  | call _ => items[1]?.toList.map fun w => Address.toBytes (Word.toAddress w)
  | _ => []

/-- What is made of an operand is among the data. -/
theorem mem_of_operand {item : Option Word} {bytes : Word → Bytes}
    (h : item.toList.map bytes ⊆ data) : ∀ w ∈ item, bytes w ∈ data := by
  rintro w hw
  rw [Option.mem_def.mp hw] at h
  exact h List.mem_cons_self

theorem mild_sstoreCost (hm : m.Sound data c.store)
    (hknown : ∀ w ∈ m.frame.stack.items[0]?, Word.toBytes w ∈ data) :
    Mild (sstoreCost c.store m.frame m.journal) := by
  refine mild_lift_bind fun _ _ => mild_lift_bind fun key hkey => mild_lift_bind fun new _ => ?_
  have hkey := hknown key (Frame.getElem?_of_operand hkey)
  exact mild_answered_bind (Journal.answered_slot hm.frame.recipient_known hkey) hm.journal
    fun _ => mild_ok _

theorem mild_selfdestructCost (hm : m.Sound data c.store)
    (hknown : ∀ w ∈ m.frame.stack.items[0]?, (Word.toAddress w).Known data)
    (schedule : Gas.Schedule) : Mild (selfdestructCost schedule c.store m.frame m.journal) := by
  refine mild_lift_bind fun _ _ => mild_lift_bind fun beneficiary hbeneficiary => ?_
  have hbeneficiary := hknown beneficiary (Frame.getElem?_of_operand hbeneficiary)
  refine mild_answered_bind (Journal.answered_balance hm.frame.recipient_known) hm.journal
    fun balance => ?_
  refine mild_answered_bind (Journal.answered_exists hbeneficiary) hm.journal fun found => ?_
  exact mild_answered_bind (Journal.answered_isEmpty hbeneficiary) hm.journal fun _ => mild_ok _

/-- **No price fails fatally** on a sound machine. -/
theorem mild_cost {i : Instruction} (hm : m.Sound data c.store)
    (hknown : i.hashed m.frame.stack.items ⊆ data) : Mild (i.cost c m.frame m.journal) := by
  cases i with
  | sstore => exact mild_sstoreCost hm (mem_of_operand hknown)
  | selfdestruct => exact mild_selfdestructCost hm (mem_of_operand hknown) _
  | call scheme => exact CallScheme.mild_cost hm.journal (mem_of_operand hknown)
  | account which => cases which <;> exact mild_ok _
  | binary | log | create => exact mild_lift _
  | sha3 | copy | extcodecopy =>
    exact mild_lift_bind fun _ _ => mild_lift_bind fun _ _ => mild_lift_bind fun _ _ => mild_lift _
  | mload | mstore | mstore8 => exact mild_lift_bind fun _ _ => mild_lift _
  | create2 | ret | revert => exact mild_lift_bind fun _ _ => mild_lift_bind fun _ _ => mild_lift _
  | _ => exact mild_ok _

end Instruction

/-! ## Children -/

/-- A record of how a frame goes on, which it can. -/
def Resume.Fits : Resume → Prop
  | .call offset length => offset + length ≤ Quantity.max
  | .create => True

/-- The frame can go on with the outcome of a child. -/
structure Frame.Awaits (f : Frame) : Prop where
  resume : ∃ how, f.resume = some how ∧ how.Fits
  room : 0 < f.stack.room

/-- The frame has a child to run, and can go on with its outcome. -/
structure Frame.Waits (f : Frame) : Prop extends f.Awaits where
  child : ∃ message, f.child = some message

namespace Exec

variable {α β : Type} {data : List Bytes} {c : Context} {m : Machine} {Q : β → Machine → Prop}
  {offset len : Word}

/-- How the code goes on: where it is suspended, its frame waits for a child. -/
def Going (control : Control) (m' : Machine) : Prop := control = .suspend → m'.frame.Waits

theorem safe_cannotSpawn_bind (hm : m.Sound data c.store) (value : Word) {f : Bool → Exec β}
    (hf : ∀ refused, Ends (f refused c) m (Safe data c.store Q)) :
    Ends ((cannotSpawn value >>= f) c) m (Safe data c.store Q) := by
  refine safe_bind (P := fun _ m₁ => m₁ = m) ?_ fun refused m₁ _ hm₁ => hm₁ ▸ hf refused
  refine bind_ends_of_ok rfl ?_
  exact safe_reading_bind hm (Journal.answered_balance hm.frame.recipient_known) fun _ =>
    bind_ends_of_ok rfl (safe_pure hm rfl)

/-- A word is pushed, and the code goes on. -/
theorem push_next_safe (hm : m.Sound data c.store) (w : Word) :
    Ends ((do
      push w
      return .next : Exec Control) c) m (Safe data c.store Going) :=
  safe_bind (push_safe hm w) fun _ m₁ hm₁ _ => safe_pure hm₁ fun h => by cases h

theorem create_safe (hm : m.Sound data c.store) (value : Word)
    (hreached : Memory.Reached offset len) (hroom : 0 < m.frame.stack.room) (salt : Option Word) :
    Ends (create value offset len salt c) m (Safe data c.store Going) := by
  refine safe_bind (readMemory_safe hm hreached) fun initCode m₁ hm₁ hstack₁ => ?_
  have hm₂ : Machine.Sound data c.store { m₁ with frame := { m₁.frame with returnData := [] } } :=
    ⟨hm₁.journal, hm₁.frame.of_eq rfl rfl rfl⟩
  refine bind_ends_of_ok rfl (safe_cannotSpawn_bind hm₂ value fun refused => ?_)
  cases refused with
  | true => exact push_next_safe hm₂ 0
  | false =>
    refine bind_ends_of_ok rfl ?_
    refine safe_changing_bind hm₂ (Journal.succeeds_incrementNonce hm₁.frame.recipient_known) fun nonce j hj => ?_
    refine bind_ends_of_ok rfl (Ends.bind ?_)
    rw [Ends, charge, Machine.charge_eq, if_pos (Gas.Schedule.childCreate_le _ _)]
    refine ⟨⟨hj, hm₁.frame.of_eq rfl rfl rfl⟩, fun _ => ⟨⟨⟨_, rfl, trivial⟩, ?_⟩, _, rfl⟩⟩
    change 0 < m₁.frame.stack.room
    rwa [hstack₁]

/-- Going on with what a computation gives that is mild. -/
theorem safe_mild_bind (hm : m.Sound data c.store) {x : Except ExitReason α} (hx : Mild x)
    {f : α → Exec β} (hf : ∀ a, x = .ok a → Ends (f a c) m (Safe data c.store Q)) :
    Ends (((liftM x : Exec α) >>= f) c) m (Safe data c.store Q) := by
  cases x with
  | ok a => exact bind_ends_of_ok rfl (hf a rfl)
  | error reason =>
    refine ⟨hm, ?_⟩
    cases reason with
    | fatal e => exact absurd rfl (hx e)
    | _ => rfl

/-- Going on with the value operand of a call. -/
theorem safe_popValue_bind (hm : m.Sound data c.store) (scheme : CallScheme) {f : Word → Exec β}
    (hroom : 0 < m.frame.stack.room)
    (hf : ∀ value m₁, m₁.Sound data c.store →
      m.frame.stack.items.drop (scheme.inputPosition - 2) = m₁.frame.stack.items →
      0 < m₁.frame.stack.room → Ends (f value c) m₁ (Safe data c.store Q)) :
    Ends ((if scheme.takesValue then pop >>= f else pure 0 >>= f) c) m (Safe data c.store Q) := by
  rw [CallScheme.inputPosition] at hf
  by_cases htakes : scheme.takesValue
  · rw [if_pos htakes]
    rw [if_pos htakes] at hf
    refine safe_pop_bind hm fun value m₁ hm₁ hitems hroom₁ => hf value m₁ hm₁ ?_ hroom₁
    rw [hitems]
    rfl
  · rw [if_neg htakes]
    rw [if_neg htakes] at hf
    exact bind_ends_of_ok rfl (hf 0 m hm rfl hroom)

theorem spawnCall_safe (hm : m.Sound data c.store) {scheme : CallScheme} {value : Word}
    {target : Address} {input : Bytes} {gas : Nat} {resume : Resume} (htarget : target.Known data)
    (hfits : resume.Fits) (hroom : 0 < m.frame.stack.room) :
    Ends (spawnCall scheme value target input gas resume c) m (Safe data c.store Going) := by
  have hm₁ : Machine.Sound data c.store { m with frame := { m.frame with returnData := [] } } :=
    ⟨hm.journal, hm.frame.of_eq rfl rfl rfl⟩
  refine bind_ends_of_ok rfl (safe_cannotSpawn_bind hm₁ value fun refused => ?_)
  cases refused with
  | true =>
    refine bind_ends_of_ok rfl (push_next_safe ?_ 0)
    exact ⟨hm.journal, hm.frame.of_eq rfl rfl rfl⟩
  | false =>
    refine safe_reading_bind hm₁ (Journal.answered_code htarget) fun code => ?_
    exact ⟨⟨hm.journal, hm.frame.of_eq rfl rfl rfl⟩, fun _ => ⟨⟨⟨resume, rfl, hfits⟩, hroom⟩, _, rfl⟩⟩

theorem call_safe (hm : m.Sound data c.store) (scheme : CallScheme)
    (hknown : ∀ w ∈ m.frame.stack.items[1]?, (Word.toAddress w).Known data)
    (hreached : ∀ region ∈ scheme.regions m.frame.stack.items,
      Memory.Reached region.1 region.2) :
    Ends (call scheme c) m (Safe data c.store Going) := by
  refine bind_ends_of_ok rfl (bind_ends_of_ok rfl (bind_ends_of_ok rfl ?_))
  refine safe_mild_bind hm (CallScheme.mild_gas hm.journal hknown _) fun split _ => ?_
  refine safe_pop_bind hm fun w m₁ hm₁ hitems _ => ?_
  refine safe_pop_bind hm₁ fun target m₂ hm₂ hitems₁ hroom₂ => ?_
  have htarget := hknown target (by rw [hitems, hitems₁]; rfl)
  refine safe_popValue_bind hm₂ scheme hroom₂ fun value m₃ hm₃ hitems₂ _ => ?_
  refine safe_pop_bind hm₃ fun inOffset m₄ hm₄ hitems₃ _ => ?_
  refine safe_pop_bind hm₄ fun inLen m₅ hm₅ hitems₄ _ => ?_
  refine safe_pop_bind hm₅ fun outOffset m₆ hm₆ hitems₅ _ => ?_
  refine safe_pop_bind hm₆ fun outLen m₇ hm₇ hitems₆ hroom₇ => ?_
  -- the operands that are popped last name the two regions that were paid for
  have hdrop : m.frame.stack.items.drop scheme.inputPosition =
      inOffset :: inLen :: outOffset :: outLen :: m₇.frame.stack.items := by
    rw [← hitems₆, ← hitems₅, ← hitems₄, ← hitems₃, ← hitems₂, hitems, hitems₁]
    cases scheme <;> rfl
  rw [CallScheme.regions_of_drop hdrop] at hreached
  have hin : Memory.Reached inOffset inLen := hreached _ List.mem_cons_self
  have hout : Memory.Reached outOffset outLen :=
    hreached _ (List.mem_cons_of_mem _ List.mem_cons_self)
  refine safe_bind (growMemory_safe hm₇ hout) fun _ m₈ hm₈ hstack₈ => ?_
  refine safe_bind (readMemory_safe hm₈ hin) fun input m₉ hm₉ hstack₉ => ?_
  have hroom₉ : 0 < m₉.frame.stack.room := by rwa [hstack₉, hstack₈]
  by_cases hlen : outLen = 0
  · -- an output of no length may be asked for anywhere
    rw [if_pos hlen]
    exact bind_ends_of_ok rfl (spawnCall_safe hm₉ htarget (Nat.zero_le _) hroom₉)
  · have hle := hout.le_max hlen
    rw [if_neg hlen, quantity_eq (by omega), quantity_eq (by omega)]
    exact bind_ends_of_ok rfl (bind_ends_of_ok rfl (bind_ends_of_ok rfl
      (spawnCall_safe hm₉ htarget hle hroom₉)))

/-! ## All instructions -/

theorem safe_next {p : Exec α} {P : α → Machine → Prop} {m : Machine}
    (hp : Ends (p c) m (Safe data c.store P)) :
    Ends ((p >>= fun _ => pure Control.next) c) m (Safe data c.store Going) :=
  safe_bind hp fun _ _ hm₁ _ => safe_pure hm₁ fun h => by cases h

theorem jumpTo_safe (hm : m.Sound data c.store) (w : Word) :
    Ends (jumpTo w c) m (Safe data c.store Going) := by
  rw [jumpTo]
  cases w.toQuantity? with
  | some position => exact safe_pure hm fun h => by cases h
  | none => exact safe_throw hm rfl

theorem onStack_safe (hm : m.Sound data c.store) (change : Stack → Except ExitError Stack) :
    Ends (onStack change c) m (Safe data c.store fun _ _ => True) :=
  bind_ends_of_ok rfl (safe_lift_bind hm fun stack _ => ⟨Sound.withStack hm stack, trivial⟩)

end Exec

namespace Instruction

variable {data : List Bytes} {c : Context} {m : Machine}

open Exec

/-- **An instruction that was paid for** neither fails fatally nor leaves a machine that is not
sound. -/
theorem execute_safe {i : Instruction} (hm : m.Sound data c.store)
    (hknown : i.hashed m.frame.stack.items ⊆ data)
    (hreached : ∀ region ∈ i.regions m.frame.stack.items, Memory.Reached region.1 region.2) :
    Ends (i.execute c) m (Safe data c.store Going) := by
  -- under a value that was popped, the region of a creation is on top
  have hbelow {value : Word} {items rest : List Word} (hitems : items = value :: rest)
      (hreached : ∀ region ∈ regionAt items 1 2, Memory.Reached region.1 region.2) :
      ∀ region ∈ regionAt rest 0 1, Memory.Reached region.1 region.2 := by
    rintro ⟨offset, len⟩ hregion
    rw [hitems] at hreached
    exact hreached (offset, len) (mem_regionAt.mpr (mem_regionAt.mp hregion))
  have htop {width : Word} (hreached : ∀ region ∈ m.frame.stack.items[0]?.toList.map (·, width),
      Memory.Reached region.1 region.2) : ∀ w ∈ m.frame.stack.items[0]?, Memory.Reached w width := by
    rintro w hw
    exact hreached (w, width) (List.mem_map_of_mem (by rw [Option.mem_def.mp hw]; exact List.mem_cons_self))
  -- one case for each instruction: what it pops is sound, and so is what it leaves with that
  cases i with
  | stop => exact safe_throw hm rfl
  | invalid => exact safe_throw hm rfl
  | unary op => exact safe_pop_bind hm fun a m₁ hm₁ _ _ => push_next_safe hm₁ _
  | binary op =>
    exact safe_pop_bind hm fun a m₁ hm₁ _ _ => safe_pop_bind hm₁ fun b m₂ hm₂ _ _ =>
      push_next_safe hm₂ _
  | ternary op =>
    exact safe_pop_bind hm fun a m₁ hm₁ _ _ => safe_pop_bind hm₁ fun b m₂ hm₂ _ _ =>
      safe_pop_bind hm₂ fun n m₃ hm₃ _ _ => push_next_safe hm₃ _
  | sha3 =>
    refine safe_popRegion_bind hm hreached fun offset len m₁ hm₁ hregion _ => ?_
    exact safe_bind (readMemory_safe hm₁ hregion) fun _ _ hm₂ _ => push_next_safe hm₂ _
  | field which => exact bind_ends_of_ok rfl (push_next_safe hm _)
  | account which =>
    refine safe_pop_bind hm fun w m₁ hm₁ hitems _ => ?_
    have haddress := mem_of_operand hknown w (by rw [hitems]; rfl)
    exact safe_bind (accountField_safe hm₁ haddress which) fun _ _ hm₂ _ => push_next_safe hm₂ _
  | calldataload =>
    exact safe_pop_bind hm fun _ _ hm₁ _ _ => bind_ends_of_ok rfl (push_next_safe hm₁ _)
  | copy source => exact safe_next (copyData_safe hm source hreached)
  | extcodecopy => exact safe_next (copyExternalCode_safe hm (mem_of_operand hknown) hreached)
  | blockhash =>
    exact safe_pop_bind hm fun _ _ hm₁ _ _ => bind_ends_of_ok rfl (push_next_safe hm₁ _)
  | pop => exact safe_pop_bind hm fun _ _ hm₁ _ _ => safe_pure hm₁ fun h => by cases h
  | mload => exact safe_next (loadWord_safe hm (htop hreached))
  | mstore => exact safe_next (storeWord_safe hm (by decide) (by decide) (htop hreached))
  | mstore8 => exact safe_next (storeWord_safe hm (by decide) (by decide) (htop hreached))
  | sload => exact safe_next (loadSlot_safe hm (mem_of_operand hknown))
  | sstore => exact safe_next (storeSlot_safe hm (mem_of_operand hknown))
  | jump => exact safe_pop_bind hm fun _ _ hm₁ _ _ => jumpTo_safe hm₁ _
  | jumpi =>
    refine safe_pop_bind hm fun target m₁ hm₁ _ _ => safe_pop_bind hm₁ fun condition m₂ hm₂ _ _ => ?_
    dsimp only
    split
    · exact jumpTo_safe hm₂ _
    · exact safe_pure hm₂ fun h => by cases h
  | jumpdest => exact safe_pure hm fun h => by cases h
  | push n => exact bind_ends_of_ok rfl (push_next_safe hm _)
  | dup n => exact safe_next (onStack_safe hm _)
  | swap n => exact safe_next (onStack_safe hm _)
  | log topics => exact safe_next (leaveLog_safe hm topics hreached)
  | create =>
    refine safe_pop_bind hm fun value m₁ hm₁ hitems _ => ?_
    refine safe_popRegion_bind hm₁ (hbelow hitems hreached) fun offset len m₂ hm₂ hregion hroom => ?_
    exact create_safe hm₂ value hregion hroom none
  | create2 =>
    refine safe_pop_bind hm fun value m₁ hm₁ hitems _ => ?_
    refine safe_popRegion_bind hm₁ (hbelow hitems hreached) fun offset len m₂ hm₂ hregion _ => ?_
    refine safe_pop_bind hm₂ fun salt m₃ hm₃ _ hroom => ?_
    exact create_safe hm₃ value hregion hroom (some salt)
  | call scheme => exact call_safe hm scheme (mem_of_operand hknown) hreached
  | ret => exact safe_bind (takeOutput_safe hm hreached) fun _ _ hm₁ _ => safe_throw hm₁ rfl
  | revert => exact safe_bind (takeOutput_safe hm hreached) fun _ _ hm₁ _ => safe_throw hm₁ rfl
  | selfdestruct =>
    exact safe_bind (selfdestruct_safe hm (mem_of_operand hknown)) fun _ _ hm₁ _ =>
      safe_throw hm₁ rfl

/-- **An instruction** does not fail fatally on a sound machine, and leaves a sound one. -/
theorem perform_safe {i : Instruction} (hm : m.Sound data c.store)
    (hknown : i.hashed m.frame.stack.items ⊆ data) :
    Ends (i.perform c) m (Safe data c.store Going) := by
  have hkept (t : Trace) : Machine.Sound data c.store { m with trace := t } :=
    ⟨hm.journal, hm.frame⟩
  refine perform_ends_of_price (fun reason t hcost => ⟨hkept t, ?_⟩)
    (fun _ t _ _ => ⟨hkept t, rfl⟩) fun cost t hcost _ => ?_
  · cases reason with
    | fatal e => exact absurd hcost (mild_cost hm hknown e)
    | _ => rfl
  · have hreached := reached_of_cost hm.frame.memory hcost
    exact execute_safe ⟨hm.journal, hm.frame.of_eq rfl rfl rfl⟩ hknown hreached

end Instruction

/-! ## Steps -/

/-- What is hashed after a program that returned. -/
def after {ε σ α : Type} (result : EStateM.Result ε σ α) (hashed : α → σ → List Bytes) :
    List Bytes :=
  match result with
  | .ok a s => hashed a s
  | .error _ _ => []

/-- The bytes that the next instruction of a frame hashes. -/
def Frame.hashed (f : Frame) (instructions : InstructionSet) : List Bytes :=
  match f.instruction instructions with
  | .ok i => i.hashed f.stack.items
  | .error _ => []

namespace Run

variable {data : List Bytes} {c : Context} {m : Machine}

/-- The bytes that at most `fuel` steps hash. -/
def hashed (c : Context) : Nat → Machine → List Bytes
  | 0, _ => []
  | fuel + 1, m =>
    if m.frame.state = .codeExecuting then
      m.frame.hashed c.instructions ++ after (step c m) fun _ => hashed c fuel
    else []

/-- The run did not fail and left a sound machine, and a frame that is suspended waits. -/
structure Safe (data : List Bytes) (store : Store) (r : Except ExitFatal Unit) (m' : Machine) :
    Prop where
  returned : r = .ok ()
  sound : m'.Sound data store
  waits : m'.frame.state = .codeSuspended → m'.frame.Waits

/-- A program that is safe returned. -/
theorem exists_of_safe {store : Store} {p : EStateM ExitFatal Machine Unit}
    (h : Ends p m (Safe data store)) : ∃ m', p m = .ok () m' ∧ Safe data store (.ok ()) m' := by
  cases hp : p m with
  | ok _ m' => exact ⟨m', rfl, h.of_ok hp⟩
  | error e m' => cases (h.of_error hp).returned

theorem perform_safe {i : Instruction} (hm : m.Sound data c.store)
    (hstate : m.frame.state = .codeExecuting) (hknown : i.hashed m.frame.stack.items ⊆ data) :
    Ends (perform i c) m (Safe data c.store) := by
  have hperform := Instruction.perform_safe hm hknown
  have hkept : Ends (i.perform c) m (Instruction.Performed c m i) := Instruction.perform_ends i
  rw [Ends, perform]
  cases hp : i.perform c m with
  | ok control m₁ =>
    obtain ⟨hm₁, hgoing⟩ := hperform.of_ok hp
    have hexecuting := ((hkept.of_ok hp).kept fun e h => by cases h).state_eq.trans hstate
    have hsafe (pc : Nat) : Safe data c.store (.ok ()) { m₁ with frame := { m₁.frame with pc } } :=
      ⟨rfl, ⟨hm₁.journal, hm₁.frame.of_eq rfl rfl rfl⟩, fun h => by cases hexecuting.symm.trans h⟩
    cases control with
    | next => exact hsafe _
    | suspend =>
      obtain ⟨⟨hresume, hroom⟩, hchild⟩ := hgoing rfl
      exact ⟨rfl, ⟨hm₁.journal, hm₁.frame.of_eq rfl rfl rfl⟩, fun _ => ⟨⟨hresume, hroom⟩, hchild⟩⟩
    | jump position =>
      dsimp only [Frame.advance]
      split
      · exact hsafe _
      · exact ⟨rfl, ⟨hm₁.journal, hm₁.frame.of_eq rfl rfl rfl⟩, fun h => by cases h⟩
  | error reason m₁ =>
    obtain ⟨hm₁, hreason⟩ := hperform.of_error hp
    cases reason with
    | fatal e => cases hreason
    | succeed how => exact ⟨rfl, ⟨hm₁.journal, hm₁.frame.of_eq rfl rfl rfl⟩, fun h => by cases h⟩
    | error e => exact ⟨rfl, ⟨hm₁.journal, hm₁.frame.of_eq rfl rfl rfl⟩, fun h => by cases h⟩
    | revert => exact ⟨rfl, ⟨hm₁.journal, hm₁.frame.of_eq rfl rfl rfl⟩, fun h => by cases h⟩

/-- **A step** of a sound machine does not fail. -/
theorem step_safe (hm : m.Sound data c.store) (hstate : m.frame.state = .codeExecuting)
    (hknown : m.frame.hashed c.instructions ⊆ data) : Ends (step c) m (Safe data c.store) := by
  refine step_ends_of (fun _ => ?_) (fun e _ => ?_) fun i _ hi => ?_
  · exact ⟨rfl, ⟨hm.journal, hm.frame.of_eq rfl rfl rfl⟩, fun h => by cases h⟩
  · exact ⟨rfl, ⟨hm.journal, hm.frame.of_eq rfl rfl rfl⟩, fun h => by cases h⟩
  · rw [Frame.hashed, hi] at hknown
    exact perform_safe hm hstate hknown

/-- **Steps one after the other** do not fail. -/
theorem steps_safe {fuel : Nat} (h : Safe data c.store (.ok ()) m)
    (hknown : hashed c fuel m ⊆ data) : Ends (steps fuel c) m (Safe data c.store) := by
  induction fuel generalizing m with
  | zero => exact h
  | succ fuel ih =>
    refine bind_ends_of_ok rfl ?_
    by_cases hstate : m.frame.state = .codeExecuting
    · rw [hashed, if_pos hstate, List.append_subset] at hknown
      rw [if_pos hstate]
      obtain ⟨m₁, hstep, h₁⟩ := exists_of_safe (step_safe h.sound hstate hknown.1)
      rw [hstep] at hknown
      exact Ends.bind_of_ok hstep (ih h₁ hknown.2)
    · rw [if_neg hstate]
      exact h

end Run

/-! ## Parents -/

namespace Machine

variable {data : List Bytes} {store : Store} {m : Machine} {child : Frame}

/-- The frame executes on, over a sound machine. -/
structure GoesOn (data : List Bytes) (store : Store) (r : Except ExitFatal Unit) (m' : Machine) :
    Prop where
  returned : r = .ok ()
  sound : m'.Sound data store
  executing : m'.frame.state = .codeExecuting

theorem continueWith_safe (hm : m.Sound data store) (hroom : 0 < m.frame.stack.room)
    (result : Word) : Ends (continueWith result) m (GoesOn data store) := by
  refine Ends.bind_of_ok rfl ?_
  obtain ⟨room, hroom⟩ := Nat.exists_eq_succ_of_ne_zero hroom.ne'
  rw [Stack.push, hroom]
  exact ⟨rfl, ⟨hm.journal, hm.frame.of_eq rfl rfl rfl⟩, rfl⟩

theorem receive_safe (hm : m.Sound data store) (hroom : 0 < m.frame.stack.room) {how : Resume}
    (hfits : how.Fits) (success : Bool) :
    Ends (receive child success how) m (GoesOn data store) := by
  cases how with
  | call offset length =>
    have hlength : (child.output.take (min length child.output.length)).length ≤ length :=
      (List.length_take_le _ _).trans (Nat.min_le_left _ _)
    have hend : offset + length ≤ Quantity.max := hfits
    have hadmits := hm.frame.memory.admits
      (.inr ((Nat.add_le_add_left hlength offset).trans hend))
    refine Ends.bind (Ends.bind_of_ok rfl ?_)
    rw [if_pos hadmits]
    have hm₁ : Machine.Sound data store { m with frame := { m.frame with
        memory := m.frame.memory.write offset (child.output.take (min length child.output.length)),
        returnData := child.output } } :=
      ⟨hm.journal, hm.frame.recipient_known, hm.frame.contract_known, hm.frame.memory.write _ _,
        hm.frame.destroyed⟩
    exact .ok rfl (Ends.bind_of_ok rfl (continueWith_safe hm₁ hroom _))
  | create =>
    rw [receive]
    dsimp only
    split
    · exact continueWith_safe hm hroom _
    · have hm₁ : Machine.Sound data store { m with frame := { m.frame with
          returnData := child.output } } := ⟨hm.journal, hm.frame.of_eq rfl rfl rfl⟩
      exact Ends.bind_of_ok rfl (continueWith_safe hm₁ hroom _)

/-- **A parent that awaits a child** goes on with its outcome. -/
theorem resume_safe (hm : m.Sound data store) (hawaits : m.frame.Awaits)
    (hchild : ∀ address ∈ child.selfDestructs, address.Known data) :
    Ends (resume child) m (GoesOn data store) := by
  obtain ⟨⟨how, hhow, hfits⟩, hroom⟩ := hawaits
  refine Ends.bind_of_ok rfl ?_
  rw [hhow]
  refine Ends.bind_of_ok rfl (Ends.bind_of_ok rfl ?_)
  by_cases hsuccess : child.state = .completedSuccess
  · rw [if_pos (decide_eq_true hsuccess)]
    refine Ends.bind_of_ok rfl (receive_safe ?_ ?_ hfits _)
    · refine ⟨hm.journal, hm.frame.recipient_known, hm.frame.contract_known, hm.frame.memory, ?_⟩
      intro address haddress
      exact (Frame.mem_absorb.mp haddress).elim (hm.frame.destroyed address) (hchild address)
    · exact hroom
  · rw [if_neg fun h => hsuccess (of_decide_eq_true h)]
    refine receive_safe ?_ ?_ hfits _
    · exact ⟨hm.journal, hm.frame.of_eq rfl rfl rfl⟩
    · exact hroom

end Machine
end Ethereum
