/-
# Checks before effects

Before an instruction has any effect its step checks that there is one, that its operands are on the
stack and its results have room there, that a static frame may perform it, that memory can reach as
far as it does, and that there is gas for it (`Machine.refusal`).  The same errors can be raised
again inside of the effects, where operands are taken and words pushed, where memory grows, where
the gas of a call is split a second time and where that of a creation is taken off.  What was
checked does not fail there: the declared numbers of items are exact (`Instruction.trades_execute`),
regions that have a price can be rounded up to words (`Memory.Addressable`), and a call that could
be split can be split again (`CallScheme.exists_gas_of_gas`).  So no effect ends code with an error
of a price (`Instruction.execute_clear`), a step that halts its frame with an error that is checked
for has refused the instruction (`Run.step_halts`), and in a run of a frame such a step leaves
everything as it was (`Run.refusals_change_nothing`).
-/

import Mathlib
import Ethereum.Proofs.Interpreter.Expanding
import Ethereum.Proofs.Interpreter.Visiting

namespace Ethereum

/-! ## Errors that are checked for -/

/-- Whether an error tells that an instruction cannot be had for the gas: there is none, or it costs
too much, or it changes the state in a static frame, or it reaches further than memory can. -/
def ExitError.isOfPrice : ExitError → Bool
  | invalidCode _ | outOfGas | staticModeViolation | invalidRange => true
  | _ => false

/-- Whether code stopped since an instruction cannot be had for the gas. -/
def ExitReason.isOfPrice : ExitReason → Bool
  | error e => e.isOfPrice
  | _ => false

/-- Whether an error is one that is checked for before an instruction has any effect. -/
def ExitError.isOfCheck (e : ExitError) : Bool := e.isOfStack || e.isOfPrice

theorem ExitError.isOfCheck_eq_false {e : ExitError} (hstack : e.isOfStack = false)
    (hprice : e.isOfPrice = false) : e.isOfCheck = false := by
  rw [isOfCheck, hstack, hprice, Bool.or_false]

/-- The error for which a step does not perform any instruction, if there is one. -/
def Machine.refusal (c : Context) (m : Machine) : Option ExitError :=
  if m.frame.pc < m.frame.program.size then
    match m.frame.instruction c.instructions with
    | .error e => some e
    | .ok i =>
      match i.cost c m.frame m.journal with
      | .error (.error e) => some e
      | .error _ => none
      | .ok cost => if cost ≤ m.frame.gas then none else some .outOfGas
  else none

/-! ## What was paid for once -/

namespace Memory

variable {m : Memory} {offset len w : Word}

/-- The end of a region rounds up to words, or nothing is there to be read or written. -/
def Addressable (offset len : Word) : Prop :=
  len ≠ 0 → ∃ stop, (Word.checkedAdd offset len).bind roundUp = some stop

theorem addressable_of_wordsAfterAccess (h : m.wordsAfterAccess offset len = .ok w) :
    Addressable offset len := by
  intro hlen
  rw [wordsAfterAccess, if_neg hlen] at h
  cases hstop : (Word.checkedAdd offset len).bind roundUp with
  | some stop => exact ⟨stop, rfl⟩
  | none =>
    rw [hstop] at h
    cases h

theorem exists_resizeOffset (m : Memory) (h : Addressable offset len) :
    ∃ m', m.resizeOffset offset len = .ok m' := by
  rw [resizeOffset]
  by_cases hlen : len = 0
  · exact ⟨m, if_pos hlen⟩
  obtain ⟨stop, hstop⟩ := h hlen
  obtain ⟨sum, hsum, hround⟩ := Option.bind_eq_some_iff.mp hstop
  rw [if_neg hlen, hsum]
  dsimp only
  rw [resizeEnd, hround]
  split
  · exact ⟨_, rfl⟩
  · exact ⟨_, rfl⟩

end Memory

/-- **Regions over which the memory can be grown** for a price are addressable. -/
theorem Frame.addressable_of_expansion {f : Frame} {regions : List (Word × Word)} {n : Nat}
    (h : f.expansion regions = .ok n) :
    ∀ region ∈ regions, Memory.Addressable region.1 region.2 := by
  match regions, h with
  | [], _ => exact fun region hregion => absurd hregion List.not_mem_nil
  | [(offset, len)], h =>
    obtain ⟨w, hw, -⟩ := exists_of_bind_eq_ok h
    rw [List.forall_mem_singleton]
    exact Memory.addressable_of_wordsAfterAccess hw
  | [(offset, len), (offset', len')], h =>
    obtain ⟨w, hw, h⟩ := exists_of_bind_eq_ok h
    obtain ⟨w', hw', -⟩ := exists_of_bind_eq_ok h
    rw [List.forall_mem_cons, List.forall_mem_singleton]
    exact ⟨Memory.addressable_of_wordsAfterAccess hw, Memory.addressable_of_wordsAfterAccess hw'⟩
  | _ :: _ :: _ :: _, h => cases h

/-- Whether a callee can be given gas does not depend on how much is left. -/
theorem Gas.Schedule.exists_childCall {schedule : Schedule} {available k : Nat} {requested : Word}
    (h : schedule.childCall available requested = .ok k) (available' : Nat) :
    ∃ k', schedule.childCall available' requested = .ok k' := by
  rw [childCall] at h ⊢
  split
  · exact ⟨_, rfl⟩
  · rename_i hreprices
    rw [if_neg hreprices] at h
    exact ⟨k, h⟩

/-- **A call whose gas was split once** can be split again, whatever is available then. -/
theorem CallScheme.exists_gas_of_gas {s : CallScheme} {schedule : Gas.Schedule} {store : Store}
    {f : Frame} {j : Journal} {available : Nat} {split : CallGas}
    (h : s.gas schedule store f j available = .ok split) (available' : Nat) :
    ∃ split', s.gas schedule store f j available' = .ok split' := by
  rw [gas_eq] at h
  obtain ⟨⟨own, requested⟩, hown, h⟩ := exists_of_bind_eq_ok h
  obtain ⟨k, hk, -⟩ := exists_of_bind_eq_ok h
  obtain ⟨k', hk'⟩ := Gas.Schedule.exists_childCall (liftM_eq_ok hk) (available' - own)
  refine ⟨⟨own, k'⟩, ?_⟩
  rw [gas_eq, hown]
  show (liftM (schedule.childCall (available' - own) requested) >>= _ :
    Except ExitReason CallGas) = _
  rw [hk']
  rfl

namespace Exec

variable {α β : Type} {c : Context} {m : Machine} {items : List Word} {offset len : Word}

/-! ## Parts of instructions -/

/-- The program does not end code with an error of a price. -/
def Clear (p : Exec α) : Prop := ∀ c m, Ends (p c) m fun r _ => Spared ExitReason.isOfPrice r

/-- The program does not end code with an error of a price where such items are on the stack. -/
def ClearOn (items : List Word) (p : Exec α) : Prop :=
  ∀ c m, m.frame.stack.items = items → Ends (p c) m fun r _ => Spared ExitReason.isOfPrice r

theorem Clear.on {p : Exec α} (h : Clear p) (items : List Word) : ClearOn items p :=
  fun c m _ => h c m

/-- **Going on** with a program that is clear whatever it is run on. -/
theorem ClearOn.bind {p : Exec α} {f : α → Exec β} (hp : ClearOn items p)
    (hf : ∀ a, Clear (f a)) : ClearOn items (p >>= f) := by
  intro c m hitems
  refine Ends.bind ((hp c m hitems).mono fun r m₁ hr => ?_)
  cases r with
  | ok a => exact hf a c m₁
  | error e => exact .error (hr e rfl)

theorem Clear.bind {p : Exec α} {f : α → Exec β} (hp : Clear p) (hf : ∀ a, Clear (f a)) :
    Clear (p >>= f) :=
  fun c m => (hp.on _).bind hf c m rfl

theorem clear_pure (a : α) : Clear (pure a) := fun _ _ => Spared.ok a

theorem clear_throw {e : ExitReason} (h : e.isOfPrice = false) : Clear (throw e : Exec α) :=
  fun _ _ => Spared.error h

theorem clear_lift {x : Except ExitReason α} (h : Spared ExitReason.isOfPrice x) :
    Clear (liftM x : Exec α) := by
  intro c m
  cases x with
  | ok a => exact Spared.ok a
  | error e => exact Spared.error (h e rfl)

theorem clear_liftError {x : Except ExitError α} (h : Spared ExitError.isOfPrice x) :
    Clear (liftM x : Exec α) := clear_lift h.reason

theorem clear_frame : Clear frame := fun _ _ => Spared.ok _

theorem clear_read : Clear (read : Exec Context) := fun _ _ => Spared.ok _

theorem clear_modifyFrame (change : Frame → Frame) : Clear (modifyFrame change) :=
  fun _ _ => Spared.ok _

theorem clear_emit (e : Event) : Clear (emit e) := fun _ _ => Spared.ok _

theorem clear_addRefund (amount : Int) : Clear (fun _ => Machine.addRefund amount) :=
  fun _ _ => Spared.ok _

theorem clear_reading (read : Journal → Store → Except StateError α) : Clear (reading read) := by
  intro c m
  rw [Ends, reading]
  cases read m.journal c.store with
  | ok a => exact .ok a
  | error e => exact .error rfl

theorem clear_changing (change : Store → Journal.Change α) : Clear (changing change) :=
  fun _ _ => Machine.changing_ends (fun _ _ _ => .error rfl) fun a _ _ => .ok a

/-! ### The stack -/

/-- An operation that puts one stack in place of another. -/
theorem clear_onStack {change : Stack → Except ExitError Stack}
    (h : ∀ s, Spared ExitError.isOfPrice (change s)) : Clear (onStack change) :=
  clear_frame.bind fun _ => (clear_liftError (h _)).bind fun _ => clear_modifyFrame _

theorem spared_push (s : Stack) (w : Word) : Spared ExitError.isOfPrice (s.push w) := by
  rw [Stack.push]
  split
  · exact .error rfl
  · exact .ok _

theorem clear_push (w : Word) : Clear (push w) := clear_onStack fun s => spared_push s w

theorem clear_dup (n : Nat) : Clear (onStack (·.dup n)) := by
  refine clear_onStack fun s => .bind ?_ fun w => spared_push s w
  rw [Stack.peek]
  split
  · exact .ok _
  · exact .error rfl

theorem clear_swap (n : Nat) : Clear (onStack (·.swap n)) := by
  refine clear_onStack fun s => ?_
  rw [Stack.swap]
  split
  · exact .ok _
  · exact .error rfl

/-- **Going on with the top item**, over the others. -/
theorem clearOn_pop_bind {f : Word → Exec β}
    (hf : ∀ w rest, items = w :: rest → ClearOn rest (f w)) : ClearOn items (pop >>= f) := by
  intro c m hitems
  refine Ends.bind (bind_ends_of_ok rfl ?_)
  cases hpop : m.frame.stack.pop with
  | error e =>
    have hunderflow : e = .stackUnderflow := by
      rw [Stack.pop] at hpop
      split at hpop
      · exact (Except.error.inj hpop).symm
      · cases hpop
    exact .error (hunderflow ▸ rfl)
  | ok popped =>
    have hitems' := Stack.items_of_pop hpop
    exact bind_ends_of_ok rfl (bind_ends_of_ok rfl
      (hf popped.1 popped.2.items (hitems.symm.trans hitems') c _ rfl))

theorem clear_pop_bind {f : Word → Exec β} (hf : ∀ w, Clear (f w)) : Clear (pop >>= f) :=
  fun c m => clearOn_pop_bind (fun w rest _ => (hf w).on rest) c m rfl

theorem clear_pop : Clear pop := by
  rw [← bind_pure pop]
  exact clear_pop_bind clear_pure

theorem clear_popMany (n : Nat) : Clear (popMany n) := by
  induction n with
  | zero => exact clear_pure _
  | succ n ih => exact clear_pop_bind fun _ => ih.bind fun _ => clear_pure _

/-! ### The memory -/

theorem clear_growMemory (h : Memory.Addressable offset len) : Clear (growMemory offset len) := by
  refine clear_frame.bind fun f => ?_
  obtain ⟨m', hm'⟩ := f.memory.exists_resizeOffset h
  exact (clear_liftError (hm' ▸ .ok _)).bind fun _ => clear_modifyFrame _

theorem clear_quantity (w : Word) : Clear (quantity w) := by
  rw [quantity]
  split
  · exact clear_pure _
  · exact clear_throw rfl

theorem clear_writeMemory (offset : Nat) (bytes : Bytes) (len : Nat) :
    Clear (writeMemory offset bytes len) := by
  refine clear_frame.bind fun f => ?_
  split
  · exact clear_modifyFrame _
  · exact clear_throw rfl

theorem clear_copyToMemory (offset dataOffset len : Word) (data : Bytes) :
    Clear (copyToMemory offset dataOffset len data) := by
  rw [copyToMemory]
  split
  · exact clear_pure _
  · exact (clear_quantity _).bind fun _ => (clear_quantity _).bind fun _ => clear_writeMemory _ _ _

theorem clear_readMemory (h : Memory.Addressable offset len) : Clear (readMemory offset len) := by
  refine (clear_growMemory h).bind fun _ => ?_
  split
  · exact clear_pure _
  · exact (clear_quantity _).bind fun _ => (clear_quantity _).bind fun _ =>
      clear_frame.bind fun _ => clear_pure _

/-- **Going on with a region** of memory that two operands give, one on top of the other. -/
theorem clearOn_popRegion_bind {f : Word → Word → Exec β}
    (h : ∀ region ∈ regionAt items 0 1, Memory.Addressable region.1 region.2)
    (hf : ∀ offset len, Memory.Addressable offset len → Clear (f offset len)) :
    ClearOn items (do
      let offset ← pop
      let len ← pop
      f offset len) := by
  refine clearOn_pop_bind fun offset rest hitems => clearOn_pop_bind fun len rest' hrest => ?_
  subst hitems hrest
  exact (hf offset len (h _ (mem_regionAt.mpr ⟨rfl, rfl⟩))).on rest'

theorem clearOn_takeOutput
    (h : ∀ region ∈ regionAt items 0 1, Memory.Addressable region.1 region.2) :
    ClearOn items takeOutput :=
  clearOn_popRegion_bind h fun _ _ hregion =>
    (clear_readMemory hregion).bind fun _ => clear_modifyFrame _

theorem clearOn_leaveLog (topics : Nat)
    (h : ∀ region ∈ regionAt items 0 1, Memory.Addressable region.1 region.2) :
    ClearOn items (leaveLog topics) :=
  clearOn_popRegion_bind h fun _ _ hregion => (clear_popMany topics).bind fun _ =>
    (clear_readMemory hregion).bind fun _ => clear_modifyFrame _

theorem clearOn_copyData (source : DataSource)
    (h : ∀ region ∈ regionAt items 0 2, Memory.Addressable region.1 region.2) :
    ClearOn items (copyData source) := by
  refine clearOn_pop_bind fun offset rest hitems => clearOn_pop_bind fun dataOffset rest' hrest =>
    clearOn_pop_bind fun len rest'' hrest' => ?_
  subst hitems hrest hrest'
  have hregion := h (offset, len) (mem_regionAt.mpr ⟨rfl, rfl⟩)
  have hcopy (data : Bytes) : Clear (do
      growMemory offset len
      copyToMemory offset dataOffset len data) :=
    (clear_growMemory hregion).bind fun _ => clear_copyToMemory _ _ _ _
  refine (clear_frame.bind fun f => ?_).on _
  dsimp only
  split
  · exact (clear_throw rfl).bind fun _ => hcopy _
  · exact hcopy _

theorem clearOn_copyExternalCode
    (h : ∀ region ∈ regionAt items 1 3, Memory.Addressable region.1 region.2) :
    ClearOn items copyExternalCode := by
  refine clearOn_pop_bind fun address rest hitems => clearOn_pop_bind fun offset rest₁ hrest =>
    clearOn_pop_bind fun codeOffset rest₂ hrest₁ => clearOn_pop_bind fun len rest₃ hrest₂ => ?_
  subst hitems hrest hrest₁ hrest₂
  have hregion := h (offset, len) (mem_regionAt.mpr ⟨rfl, rfl⟩)
  exact ((clear_growMemory hregion).bind fun _ => (clear_reading _).bind fun _ =>
    clear_copyToMemory _ _ _ _).on _

theorem clearOn_storeWord (width : Nat)
    (h : ∀ w ∈ items[0]?, Memory.Addressable w (BitVec.ofNat 256 width)) :
    ClearOn items (storeWord width) := by
  refine clearOn_pop_bind fun offset rest hitems => (clear_pop_bind fun value => ?_).on rest
  subst hitems
  exact (clear_growMemory (h offset rfl)).bind fun _ => (clear_quantity _).bind fun _ =>
    clear_writeMemory _ _ _

theorem clearOn_loadWord (h : ∀ w ∈ items[0]?, Memory.Addressable w 32) :
    ClearOn items loadWord := by
  refine clearOn_pop_bind fun offset rest hitems => ?_
  subst hitems
  exact ((clear_growMemory (h offset rfl)).bind fun _ => (clear_quantity _).bind fun _ =>
    clear_frame.bind fun _ => clear_push _).on rest

/-! ### The state -/

theorem clear_accountField (address : Address) (which : AccountField) :
    Clear (accountField address which) := by
  cases which with
  | balance =>
    rw [accountField]
    exact clear_reading _
  | extcodesize => exact (clear_reading _).bind fun _ => clear_pure _
  | extcodehash =>
    refine (clear_reading _).bind fun found => ?_
    split
    · exact clear_pure _
    · refine (clear_reading _).bind fun isEmpty => ?_
      split
      · exact clear_pure _
      · exact clear_reading _

theorem clear_loadSlot : Clear loadSlot :=
  clear_pop_bind fun _ => clear_frame.bind fun _ => (clear_reading _).bind fun _ =>
    (clear_emit _).bind fun _ => clear_push _

theorem clear_storeSlot : Clear storeSlot :=
  clear_pop_bind fun _ => clear_pop_bind fun _ => clear_frame.bind fun _ =>
    (clear_reading _).bind fun _ => (clear_addRefund _).bind fun _ => (clear_emit _).bind fun _ =>
      clear_changing _

theorem clear_selfdestruct : Clear selfdestruct :=
  clear_pop_bind fun _ => clear_frame.bind fun _ => (clear_reading _).bind fun _ =>
    (clear_changing _).bind fun _ => (clear_changing _).bind fun _ =>
      (clear_changing _).bind fun _ => clear_modifyFrame _

theorem clear_jumpTo (w : Word) : Clear (jumpTo w) := by
  rw [jumpTo]
  split
  · exact clear_pure _
  · exact clear_throw rfl

/-! ### Children -/

theorem clear_cannotSpawn (value : Word) : Clear (cannotSpawn value) :=
  clear_frame.bind fun _ => (clear_reading _).bind fun _ => clear_read.bind fun _ => clear_pure _

theorem clear_push_next (w : Word) : Clear (do
    push w
    return Control.next) :=
  (clear_push w).bind fun _ => clear_pure _

/-- The gas of a creation is a part of what is left. -/
theorem clear_create (value : Word) (h : Memory.Addressable offset len) (salt : Option Word) :
    Clear (create value offset len salt) := by
  refine (clear_readMemory h).bind fun initCode => (clear_modifyFrame _).bind fun _ => ?_
  refine (clear_cannotSpawn value).bind fun refused => ?_
  split
  · exact clear_push_next 0
  intro c m
  refine bind_ends_of_ok rfl (Ends.bind ?_)
  refine Machine.changing_ends (fun _ _ _ => .error rfl) fun nonce j _ => ?_
  refine bind_ends_of_ok rfl (Ends.bind ?_)
  rw [Ends, charge, Machine.charge_eq, if_pos (Gas.Schedule.childCreate_le _ _)]
  exact Spared.ok _

theorem clear_spawnCall (scheme : CallScheme) (value : Word) (target : Address) (input : Bytes)
    (gas : Nat) (resume : Resume) :
    Clear (spawnCall scheme value target input gas resume) := by
  refine (clear_modifyFrame _).bind fun _ => (clear_cannotSpawn value).bind fun refused => ?_
  split
  · exact (clear_modifyFrame _).bind fun _ => clear_push_next 0
  · exact (clear_reading _).bind fun _ => (clear_modifyFrame _).bind fun _ => clear_pure _

/-- Going on with the value of a call, over the operands below it. -/
theorem clearOn_popValue_bind {f : Word → Exec β} (scheme : CallScheme)
    (hf : ∀ value rest, items.drop (scheme.inputPosition - 2) = rest → ClearOn rest (f value)) :
    ClearOn items (if scheme.takesValue then pop >>= f else pure 0 >>= f) := by
  rw [CallScheme.inputPosition] at hf
  by_cases htakes : scheme.takesValue
  · rw [if_pos htakes]
    rw [if_pos htakes] at hf
    refine clearOn_pop_bind fun value rest hitems => hf value rest ?_
    rw [hitems]
    rfl
  · rw [if_neg htakes]
    rw [if_neg htakes] at hf
    exact fun c m hitems => bind_ends_of_ok rfl (hf 0 items rfl c m hitems)

/-- **A call** whose gas can be split, over regions that are addressable. -/
theorem call_clear {scheme : CallScheme} {split : CallGas}
    (hsplit : scheme.gas c.config.schedule c.store m.frame m.journal
      (Quantity.satAdd m.frame.gas m.frame.currentCost) = .ok split)
    (h : ∀ region ∈ scheme.regions m.frame.stack.items, Memory.Addressable region.1 region.2) :
    Ends (call scheme c) m fun r _ => Spared ExitReason.isOfPrice r := by
  refine bind_ends_of_ok rfl (bind_ends_of_ok rfl (bind_ends_of_ok rfl ?_))
  refine lift_bind_ends (fun e he => ?_) fun split' _ => ?_
  · rw [hsplit] at he
    cases he
  suffices hrest : ClearOn m.frame.stack.items _ from hrest c m rfl
  refine clearOn_pop_bind fun w rest hitems => clearOn_pop_bind fun target rest₁ hrest => ?_
  refine clearOn_popValue_bind scheme fun value rest₂ hrest₁ => ?_
  refine clearOn_pop_bind fun inOffset rest₃ hrest₂ => clearOn_pop_bind fun inLen rest₄ hrest₃ => ?_
  refine clearOn_pop_bind fun outOffset rest₅ hrest₄ =>
    clearOn_pop_bind fun outLen rest₆ hrest₅ => ?_
  have hdrop : m.frame.stack.items.drop scheme.inputPosition =
      inOffset :: inLen :: outOffset :: outLen :: rest₆ := by
    rw [← hrest₅, ← hrest₄, ← hrest₃, ← hrest₂, ← hrest₁, hitems, hrest]
    cases scheme <;> rfl
  rw [CallScheme.regions_of_drop hdrop, List.forall_mem_cons, List.forall_mem_singleton] at h
  refine Clear.on ?_ _
  refine (clear_growMemory h.2).bind fun _ => (clear_readMemory h.1).bind fun input => ?_
  dsimp only
  split
  · exact (clear_pure _).bind fun _ => clear_spawnCall _ _ _ _ _ _
  · exact (clear_quantity _).bind fun _ => (clear_quantity _).bind fun _ =>
      (clear_pure _).bind fun _ => clear_spawnCall _ _ _ _ _ _

end Exec

/-! ## Instructions -/

namespace Instruction

variable {c : Context} {m m₁ : Machine} {i : Instruction} {cost : Nat}

open Exec

/-- Whether an instruction is a call, the gas of which is split a second time. -/
def isCall : Instruction → Bool
  | call _ => true
  | _ => false

/-- An instruction but a call does not end code with an error of a price, where its regions are
addressable. -/
theorem clearOn_execute {items : List Word} (hcall : i.isCall = false)
    (h : ∀ region ∈ i.regions items, Memory.Addressable region.1 region.2) :
    ClearOn items i.execute := by
  have hnext {p : Exec Unit} (hp : ClearOn items p) :
      ClearOn items (p >>= fun _ => pure Control.next) := hp.bind fun _ => clear_pure _
  have htop {len : Word} (h : ∀ region ∈ items[0]?.toList.map (·, len),
      Memory.Addressable region.1 region.2) : ∀ w ∈ items[0]?, Memory.Addressable w len :=
    fun w hw => h (w, len) (List.mem_map.mpr ⟨w, Option.mem_toList.mpr hw, rfl⟩)
  -- an instruction without a region reads no price; the others name their region on top
  cases i with
  | call scheme => cases hcall
  | stop => exact (clear_throw rfl).on _
  | invalid => exact (clear_throw rfl).on _
  | unary => exact (clear_pop_bind fun _ => clear_push_next _).on _
  | binary => exact (clear_pop_bind fun _ => clear_pop_bind fun _ => clear_push_next _).on _
  | ternary =>
    exact (clear_pop_bind fun _ => clear_pop_bind fun _ => clear_pop_bind fun _ =>
      clear_push_next _).on _
  | sha3 =>
    exact clearOn_popRegion_bind h fun _ _ hregion =>
      (clear_readMemory hregion).bind fun _ => clear_push_next _
  | field => exact (clear_frame.bind fun _ => clear_push_next _).on _
  | account =>
    exact (clear_pop_bind fun _ => (clear_accountField _ _).bind fun _ => clear_push_next _).on _
  | calldataload | blockhash =>
    exact (clear_pop_bind fun _ => clear_frame.bind fun _ => clear_push_next _).on _
  | copy source => exact hnext (clearOn_copyData source h)
  | extcodecopy => exact hnext (clearOn_copyExternalCode h)
  | pop => exact (clear_pop.bind fun _ => clear_pure _).on _
  | mload => exact hnext (clearOn_loadWord (htop h))
  | mstore => exact hnext (clearOn_storeWord 32 (htop h))
  | mstore8 => exact hnext (clearOn_storeWord 1 (htop h))
  | sload => exact hnext (clear_loadSlot.on _)
  | sstore => exact hnext (clear_storeSlot.on _)
  | jump => exact (clear_pop_bind fun _ => clear_jumpTo _).on _
  | jumpi =>
    refine (clear_pop_bind fun _ => clear_pop_bind fun _ => ?_).on _
    dsimp only
    split
    · exact clear_jumpTo _
    · exact clear_pure _
  | jumpdest => exact (clear_pure _).on _
  | push => exact (clear_frame.bind fun _ => clear_push_next _).on _
  | dup n => exact hnext ((clear_dup n).on _)
  | swap n => exact hnext ((clear_swap (n + 1)).on _)
  | log topics => exact hnext (clearOn_leaveLog topics h)
  | create =>
    refine clearOn_pop_bind fun value rest hitems => ?_
    subst hitems
    exact clearOn_popRegion_bind h fun _ _ hregion => clear_create value hregion none
  | create2 =>
    refine clearOn_pop_bind fun value rest hitems => ?_
    subst hitems
    exact clearOn_popRegion_bind h fun _ _ hregion =>
      clear_pop_bind fun salt => clear_create value hregion (some salt)
  | ret => exact (clearOn_takeOutput h).bind fun _ => clear_throw rfl
  | revert => exact (clearOn_takeOutput h).bind fun _ => clear_throw rfl
  | selfdestruct => exact (clear_selfdestruct.bind fun _ => clear_throw rfl).on _

/-- **An instruction that was paid for** does not end code with an error of a price. -/
theorem execute_clear (hcost : i.cost c m.frame m.journal = .ok cost) (hpaid : m.Paid cost m₁) :
    Ends (i.execute c) m₁ fun r _ => Spared ExitReason.isOfPrice r := by
  obtain ⟨e, -, he⟩ := exists_expansion_of_cost hcost
  have hregions := Frame.addressable_of_expansion he
  have hitems : m₁.frame.stack.items = m.frame.stack.items := by rw [hpaid.frame_eq]
  by_cases hcall : i.isCall = false
  · exact clearOn_execute hcall hregions c m₁ hitems
  cases i with
  | call scheme =>
    obtain ⟨split, hsplit, -⟩ := CallScheme.exists_gas_of_cost hcost
    obtain ⟨split', hsplit'⟩ := CallScheme.exists_gas_of_gas hsplit
      (Quantity.satAdd m₁.frame.gas m₁.frame.currentCost)
    have hsplit₁ : scheme.gas c.config.schedule c.store m₁.frame m₁.journal
        (Quantity.satAdd m₁.frame.gas m₁.frame.currentCost) = .ok split' := by
      rw [hpaid.journal_eq, hpaid.frame_eq]
      rw [hpaid.frame_eq] at hsplit'
      exact hsplit'
    exact call_clear hsplit₁ (hitems ▸ hregions)
  | _ => exact absurd rfl hcall

/-- Performing an instruction that has a price, and gas enough for it. -/
theorem perform_ends_of_charged {cost : Nat} {Q : Except ExitReason Control → Machine → Prop}
    (hcost : i.cost c m.frame m.journal = .ok cost) (hle : cost ≤ m.frame.gas)
    (h : ∀ m₁, m.Paid cost m₁ → Ends (i.execute c) m₁ Q) : Ends (i.perform c) m Q := by
  refine perform_ends_of_price (fun reason t hcost' => ?_) (fun cost' t hcost' hlt => ?_)
    fun cost' t hcost' _ => ?_
  · cases hcost.symm.trans hcost'
  · cases hcost.symm.trans hcost'
    exact absurd hle hlt.not_ge
  · cases hcost.symm.trans hcost'
    exact h _ ⟨hle, rfl, rfl⟩

/-- How an instruction ends whose operands are there. -/
inductive Checked (c : Context) (m : Machine) : Except ExitReason Control → Machine → Prop
  /-- It has no price, or not enough gas is there. -/
  | refused {e : ExitError} {m' : Machine} (hrefusal : m.refusal c = some e)
    (hframe : m'.frame = m.frame) (hjournal : m'.journal = m.journal) :
    Checked c m (.error (.error e)) m'
  | clear {r : Except ExitReason Control} {m' : Machine} (hnone : m.refusal c = none)
    (hclear : Spared ExitReason.isOfPrice r) : Checked c m r m'

theorem Checked.refusal_eq {r : Except ExitReason Control} {m' : Machine} (h : Checked c m r m')
    (hr : ∀ e, r ≠ .error (.error e)) : m.refusal c = none := by
  cases h with
  | refused => exact absurd rfl (hr _)
  | clear hnone => exact hnone

/-- **An instruction whose operands are there** fails in its price, and nothing changed, or does not
end code with an error of a price. -/
theorem perform_checks (hpc : m.frame.pc < m.frame.program.size)
    (hi : m.frame.instruction c.instructions = .ok i) : Ends (i.perform c) m (Checked c m) := by
  have hrefusal : m.refusal c = match i.cost c m.frame m.journal with
      | .error (.error e) => some e
      | .error _ => none
      | .ok cost => if cost ≤ m.frame.gas then none else some .outOfGas := by
    rw [Machine.refusal, if_pos hpc, hi]
  refine perform_ends_of_price (fun reason t hcost => ?_) (fun cost t hcost hlt => ?_)
    fun cost t hcost hle => ?_
  · rw [hcost] at hrefusal
    cases reason with
    | error e => exact .refused hrefusal rfl rfl
    | _ => exact .clear hrefusal (.error rfl)
  · rw [hcost] at hrefusal
    exact .refused (hrefusal.trans (if_neg hlt.not_ge)) rfl rfl
  · rw [hcost] at hrefusal
    have hpaid : m.Paid cost
        ⟨{ m.frame with gas := m.frame.gas - cost, currentCost := cost }, m.journal, t⟩ :=
      ⟨hle, rfl, rfl⟩
    exact (execute_clear hcost hpaid).mono fun _ _ hclear =>
      .clear (hrefusal.trans (if_pos hle)) hclear

end Instruction

/-! ## Steps -/

namespace Run

variable {c : Context} {first m m' : Machine} {e : ExitError}

open Instruction

/-- Where the second machine is halted with an error that is checked for, the first one was refused
an instruction, or it was halted with that error already. -/
def Refused (c : Context) (m m' : Machine) : Prop :=
  ∀ e, m'.frame.state = .exceptionalHalt → m'.frame.exit = some (.error e) → e.isOfCheck = true →
    (m.refusal c = some e ∧ m'.frame = m.frame.halt e ∧ m'.journal = m.journal) ∨
    (m.refusal c = none ∧ m.frame.state = .exceptionalHalt ∧ m.frame.exit = some (.error e))

/-- A frame whose state and exit are as before. -/
theorem Refused.of_kept (hnone : m.refusal c = none) (hstate : m'.frame.state = m.frame.state)
    (hexit : m'.frame.exit = m.frame.exit) : Refused c m m' :=
  fun _ hhalted herror _ => .inr ⟨hnone, hstate ▸ hhalted, hexit ▸ herror⟩

/-- A frame that an instruction took out of its code. -/
theorem Refused.of_left {i : Instruction} {reason : ExitReason} {m₁ : Machine} {f : Frame}
    (hchecked : Checked c m (.error reason) m₁)
    (htraded : Exec.Traded i.consumed (Exec.leaves i.produced) m (.error reason) m₁)
    (hleave : m₁.frame.leave reason = .ok f) : Refused c m { m₁ with frame := f } := by
  intro e hstate hexit hcheck
  cases reason with
  | fatal => cases hleave
  | succeed | revert =>
    rw [← Except.ok.inj hleave] at hstate
    cases hstate
  | error e' =>
    rw [← Except.ok.inj hleave] at hexit ⊢
    cases hexit
    cases hchecked with
    | refused hrefusal hframe hjournal => exact .inl ⟨hrefusal, by rw [hframe]; rfl, hjournal⟩
    | clear _ hclear =>
      have hspared := ExitError.isOfCheck_eq_false (htraded.spared _ rfl) (hclear _ rfl)
      exact absurd (hspared.symm.trans hcheck) Bool.false_ne_true

/-- **A step that halts its frame** with an error that is checked for has refused an instruction and
changed nothing else, unless the frame was halted with that error before. -/
theorem step_halts : Ends (step c) m fun _ m' => Refused c m m' := by
  by_cases hpc : m.frame.pc < m.frame.program.size
  · refine step_ends_of (fun h => absurd hpc (not_lt.mpr h)) (fun e he => ?_) fun i _ hi => ?_
    · intro e' _ hexit _
      cases hexit
      refine .inl ⟨?_, rfl, rfl⟩
      rw [Machine.refusal, if_pos hpc, he]
    refine perform_ends_of ((perform_checks hpc hi).and (traded_of_instruction hi))
      (fun control m₁ h => ?_) (fun reason m₁ f h hleave => .of_left h.1 h.2 hleave)
      fun e m₁ h => ?_
    · obtain ⟨hchecked, htraded⟩ := h
      have hstate : m₁.frame.state = m.frame.state := congrArg Place.state htraded.place_eq
      have hexit : m₁.frame.exit = m.frame.exit := congrArg Place.exit htraded.place_eq
      have hnone := hchecked.refusal_eq fun _ hr => by cases hr
      cases control with
      | next => exact .of_kept hnone hstate hexit
      | suspend => exact fun _ hhalted => by cases hhalted
      | jump position =>
        rw [Frame.advance]
        split
        · exact .of_kept hnone hstate hexit
        · intro e' _ herror hcheck
          cases herror
          cases hcheck
    · obtain ⟨hchecked, htraded⟩ := h
      exact .of_kept (hchecked.refusal_eq fun _ hr => by cases hr) (congrArg Place.state htraded.place_eq)
        (congrArg Place.exit htraded.place_eq)
  · refine bind_ends_of_ok rfl ?_
    rw [if_neg hpc]
    exact fun _ hhalted => by cases hhalted

/-! ## Runs -/

/-- What an instruction is refused for does not depend on how the frame ended. -/
theorem refusal_of_halt (hframe : m'.frame = m.frame.halt e) (hjournal : m'.journal = m.journal) :
    m'.refusal c = m.refusal c := by
  rw [Machine.refusal, Machine.refusal, hframe, hjournal]
  rfl

/-- **A frame that is halted** with an error that is checked for would be refused the instruction
again, all along a run. -/
theorem Visits.refusal_eq (hfirst : first.frame.state ≠ .exceptionalHalt) (h : Visits c first m)
    (hstate : m.frame.state = .exceptionalHalt) (hexit : m.frame.exit = some (.error e))
    (hcheck : e.isOfCheck = true) : m.refusal c = some e := by
  induction h with
  | first => exact absurd hstate hfirst
  | @step m h _ ih =>
    obtain ⟨_, hrefused⟩ := (step_halts (c := c) (m := m)).exists_result
    rcases hrefused e hstate hexit hcheck with ⟨hrefusal, hframe, hjournal⟩ | ⟨hnone, hhalted, hby⟩
    · rw [refusal_of_halt hframe hjournal, hrefusal]
    · rw [ih hhalted hby] at hnone
      cases hnone
  | @resume m h hwaits child j t ih =>
    obtain ⟨r, hrejoined⟩ :=
      (Machine.resume_rejoins child ⟨m.frame.takeChild.2, j, t⟩).exists_result
    cases r with
    | ok => exact absurd ((hrejoined.ok rfl).1.symm.trans hstate) nofun
    | error e' =>
      have hkept : m.frame.state = .exceptionalHalt := (hrejoined.error e' rfl).1.symm.trans hstate
      exact absurd (hwaits.symm.trans hkept) nofun

/-- **Checks come before effects.**  In a run of a frame under any rules and over any state, where a
step leaves the frame halted for too few or too many items, for no instruction, for too little gas,
for a change in a static frame or for a region out of range, the instruction was refused for that,
and the frame is as it was before but that it is halted: its stack, its memory, where it stands, its
gas and refunds, logs, deletions, output and return data, and so is the state of the accounts. -/
theorem refusals_change_nothing (hfirst : first.frame.state ≠ .exceptionalHalt)
    (h : Visits c first m) (hcheck : e.isOfCheck = true)
    (hstate : (stateAfter (step c) m).frame.state = .exceptionalHalt)
    (hexit : (stateAfter (step c) m).frame.exit = some (.error e)) :
    m.refusal c = some e ∧
      (stateAfter (step c) m).frame =
        { m.frame with state := .exceptionalHalt, exit := some (.error e) } ∧
      (stateAfter (step c) m).journal = m.journal := by
  obtain ⟨_, hrefused⟩ := (step_halts (c := c) (m := m)).exists_result
  rcases hrefused e hstate hexit hcheck with hrefusal | ⟨hnone, hhalted, hby⟩
  · exact hrefusal
  · rw [h.refusal_eq hfirst hhalted hby hcheck] at hnone
    cases hnone

/-! ### A write in a static frame -/

/-- A static frame that pushes 7 and 9 and is about to write the slot 9. -/
def staticWriter : Machine where
  frame := { Frame.ofMessage {
      kind := .call, sender := 1, recipient := 2, contract := 2, originator := 1, gasPrice := 0,
      value := 0, apparentValue := 0, input := [], code := [0x60, 7, 0x60, 9, 0x55], gas := 100000,
      depth := 0, isStatic := true } ⟨0, 0, 0, 0, 0, #[]⟩ 1024 Quantity.max with
    state := .codeExecuting }
  journal := (Journal.ofWorld .empty).put (.fresh 2 1 0)
  trace := .off

/-- The write is refused, and both operands are on the stack still. -/
theorem refusals_change_nothing_of_staticWriter :
    ∃ m m', Visits bareContext staticWriter m ∧ m' = stateAfter (step bareContext) m ∧
      m.refusal bareContext = some .staticModeViolation ∧ m'.frame.stack.items = [9, 7] ∧
      m'.frame.gas = 99994 ∧
      m'.frame = { m.frame with
        state := .exceptionalHalt, exit := some (.error .staticModeViolation) } ∧
      m'.journal = m.journal := by
  have hfirst : staticWriter.frame.state = .codeExecuting := rfl
  have hpushed : (stateAfter (step bareContext) staticWriter).frame.state = .codeExecuting := by
    decide +kernel
  have hvisited : Visits bareContext staticWriter
      (stateAfter (step bareContext) (stateAfter (step bareContext) staticWriter)) :=
    (Visits.first.step (by rw [hfirst]; nofun)).step (by rw [hpushed]; nofun)
  generalize hm : stateAfter (step bareContext) (stateAfter (step bareContext) staticWriter) = m
    at hvisited
  have hends : m.frame.stack.items = [9, 7] ∧ m.frame.gas = 99994 ∧
      (stateAfter (step bareContext) m).frame.state = .exceptionalHalt ∧
      (stateAfter (step bareContext) m).frame.exit = some (.error .staticModeViolation) := by
    rw [← hm]
    decide +kernel
  obtain ⟨hitems, hgas, hstate, hexit⟩ := hends
  obtain ⟨hrefusal, hframe, hjournal⟩ :=
    refusals_change_nothing (by rw [hfirst]; nofun) hvisited rfl hstate hexit
  exact ⟨m, _, hvisited, rfl, hrefusal, by rw [hframe]; exact hitems, by rw [hframe]; exact hgas,
    hframe, hjournal⟩

end Run
end Ethereum
