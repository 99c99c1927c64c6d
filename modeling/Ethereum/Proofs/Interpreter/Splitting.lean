/-
# How a call splits its gas

A call is charged for itself and for what its callee gets, and the two are reckoned twice: once for
the price, out of the gas that is there then, and once when the call is performed, out of the gas
that is left and the price that was just paid.  Both give the same split, since the two are together
the gas before (`CallScheme.gas_of_paid`).  What the call pays for itself is its base price, the
price of growing the memory over both of its regions, and two surcharges (`CallScheme.Bills`,
`CallScheme.exists_bill_of_cost`).  A call that is performed waits for its callee, or is refused and
gets the gas back, or fails fatally for what it cannot read (`Exec.call_ends`): the errors that its
parts could raise besides are checked for before (`Instruction.execute_clear`,
`Instruction.trades_execute`).  With the stipend, which is paid on top, no sum saturates, and every
unit of gas is accounted for (`Run.call_splits_exactly`).
-/

import Mathlib
import Ethereum.Proofs.Interpreter.Addressing
import Ethereum.Proofs.Interpreter.Effects
import Ethereum.Proofs.Interpreter.Refusing
import Ethereum.Proofs.Interpreter.Sound

namespace Ethereum

/-! ## Bills -/

/-- What a call asks for and what it is charged for. -/
structure CallBill where
  /-- The gas that is asked for the callee. -/
  requested : Word
  value : Word
  /-- The price of growing the memory over the input and the output. -/
  expansion : Nat
  /-- The surcharge for an account that comes into being. -/
  surcharge : Nat

namespace CallBill

/-- What the call pays for itself. -/
def own (b : CallBill) (schedule : Gas.Schedule) : Nat :=
  schedule.callBase + b.expansion + Gas.valueTransfer (b.value ≠ 0) + b.surcharge

/-- The gas that the callee gets on top. -/
def stipend (b : CallBill) : Nat := if b.value = 0 then 0 else Gas.callStipend

/-- The stipend is a part of the surcharge for a value. -/
theorem stipend_le_own (b : CallBill) (schedule : Gas.Schedule) :
    b.stipend ≤ b.own schedule := by
  rw [stipend, own, Gas.valueTransfer, Gas.callStipend]
  by_cases h : b.value = 0
  · rw [if_pos h]
    exact Nat.zero_le _
  · rw [if_neg h, decide_eq_true h, if_pos rfl]
    omega

/-- **What the callee is given** is its part and the stipend, if their sum is a quantity. -/
theorem given_eq (b : CallBill) {own k : Nat} (h : k + b.stipend ≤ Quantity.max) :
    (CallGas.mk own k).given b.value = k + b.stipend := by
  rw [stipend] at h ⊢
  rw [CallGas.given]
  split
  · rfl
  · rename_i hvalue
    rw [if_neg hvalue] at h
    exact min_eq_left h

end CallBill

namespace CallScheme

variable {s : CallScheme} {schedule : Gas.Schedule} {store : Store} {f : Frame} {j : Journal}
  {cost : Nat}

/-- A read that a price depends on. -/
theorem read_eq_ok {α : Type} {x : Except StateError α} {a : α}
    (h : (liftM x : Except ExitReason α) = .ok a) : x = .ok a := by
  cases x with
  | ok b => exact congrArg _ (Except.ok.inj h)
  | error e => cases h

/-- What a call by a frame is charged for. -/
structure Bills (s : CallScheme) (schedule : Gas.Schedule) (store : Store) (f : Frame) (j : Journal)
    (b : CallBill) : Prop where
  requested_eq : f.operand 0 = .ok b.requested
  value_eq : s.valueOperand f = .ok b.value
  expansion_eq : f.expansion (s.regions f.stack.items) = .ok b.expansion
  /-- A plain call pays for a target that comes into being. -/
  charged : s = .call → ∃ target found isEmpty, f.operand 1 = .ok target ∧
    j.exists? store (Word.toAddress target) = .ok found ∧
    j.isEmpty store (Word.toAddress target) = .ok isEmpty ∧
    b.surcharge =
      if schedule.chargesNewAccount (b.value ≠ 0) found isEmpty then Gas.newAccount else 0
  /-- Other calls run in the account that they are made from. -/
  spared : s ≠ .call → b.surcharge = 0

theorem exists_bill_of_ownGas {x : Nat × Word} (h : s.ownGas schedule store f j = .ok x) :
    ∃ b, s.Bills schedule store f j b ∧ x = (b.own schedule, b.requested) := by
  rw [ownGas] at h
  obtain ⟨requested, hrequested, h⟩ := exists_of_bind_eq_ok h
  obtain ⟨target, htarget, h⟩ := exists_of_bind_eq_ok h
  obtain ⟨value, hvalue, h⟩ := exists_of_bind_eq_ok h
  obtain ⟨inOffset, hinOffset, h⟩ := exists_of_bind_eq_ok h
  obtain ⟨inLen, hinLen, h⟩ := exists_of_bind_eq_ok h
  obtain ⟨outOffset, houtOffset, h⟩ := exists_of_bind_eq_ok h
  obtain ⟨outLen, houtLen, h⟩ := exists_of_bind_eq_ok h
  obtain ⟨expansion, hexpansion, h⟩ := exists_of_bind_eq_ok h
  obtain ⟨own₁, hown₁, h⟩ := exists_of_bind_eq_ok h
  obtain ⟨own₂, hown₂, h⟩ := exists_of_bind_eq_ok h
  have hregions : f.expansion (s.regions f.stack.items) = .ok expansion := by
    rw [regions, Frame.regionAt_of_operands (liftM_eq_ok hinOffset) (liftM_eq_ok hinLen),
      Frame.regionAt_of_operands (liftM_eq_ok houtOffset) (liftM_eq_ok houtLen)]
    exact liftM_eq_ok hexpansion
  have hsum : own₂ = schedule.callBase + expansion + Gas.valueTransfer (value ≠ 0) := by
    rw [Gas.eq_of_add (liftM_eq_ok hown₂), Gas.eq_of_add (liftM_eq_ok hown₁)]
  dsimp only at h
  -- only a plain call can create its target, and pays for that
  by_cases hcall : s = .call
  · rw [if_pos hcall] at h
    obtain ⟨found, hfound, h⟩ := exists_of_bind_eq_ok h
    obtain ⟨isEmpty, hisEmpty, h⟩ := exists_of_bind_eq_ok h
    have hbill (surcharge : Nat) (hsurcharge : surcharge =
        if schedule.chargesNewAccount (value ≠ 0) found isEmpty then Gas.newAccount else 0) :
        s.Bills schedule store f j ⟨requested, value, expansion, surcharge⟩ :=
      ⟨liftM_eq_ok hrequested, liftM_eq_ok hvalue, hregions,
        fun _ => ⟨target, found, isEmpty, liftM_eq_ok htarget, read_eq_ok hfound,
          read_eq_ok hisEmpty, hsurcharge⟩, fun hother => absurd hcall hother⟩
    split at h
    · rename_i hnew
      obtain ⟨own₃, hown₃, h⟩ := exists_of_bind_eq_ok h
      cases h
      refine ⟨_, hbill Gas.newAccount (if_pos hnew).symm, ?_⟩
      rw [Gas.eq_of_add (liftM_eq_ok hown₃), hsum]
      rfl
    · rename_i hnew
      cases h
      refine ⟨_, hbill 0 (if_neg hnew).symm, ?_⟩
      rw [hsum]
      rfl
  · rw [if_neg hcall] at h
    cases h
    refine ⟨⟨requested, value, expansion, 0⟩, ⟨liftM_eq_ok hrequested, liftM_eq_ok hvalue, hregions,
      fun h => absurd h hcall, fun _ => rfl⟩, ?_⟩
    rw [hsum]
    rfl

/-- **The price of a call** is what it pays for itself and what its callee gets out of the rest. -/
theorem exists_bill_of_cost (h : s.cost schedule store f j = .ok cost) : ∃ b k,
    s.Bills schedule store f j b ∧
    schedule.childCall (f.gas - b.own schedule) b.requested = .ok k ∧ cost = b.own schedule + k ∧
    s.gas schedule store f j f.gas = .ok ⟨b.own schedule, k⟩ := by
  obtain ⟨split, hsplit, rfl⟩ := exists_gas_of_cost h
  have hgas := hsplit
  rw [gas_eq] at hsplit
  obtain ⟨x, hx, hsplit⟩ := exists_of_bind_eq_ok hsplit
  obtain ⟨b, hb, rfl⟩ := exists_bill_of_ownGas hx
  obtain ⟨k, hk, hsplit⟩ := exists_of_bind_eq_ok hsplit
  cases hsplit
  exact ⟨b, k, hb, liftM_eq_ok hk, rfl, hgas⟩

/-- **The gas is split the same way** once the price is paid: what is left and what was paid are
together the gas before. -/
theorem gas_of_paid {m m₁ : Machine} {split : CallGas} (hgas : m.frame.gas ≤ Quantity.max)
    (hpaid : m.Paid cost m₁)
    (h : s.gas schedule store m.frame m.journal m.frame.gas = .ok split) :
    s.gas schedule store m₁.frame m₁.journal
      (Quantity.satAdd m₁.frame.gas m₁.frame.currentCost) = .ok split := by
  have hle := hpaid.cost_le
  have havailable : Quantity.satAdd (m.frame.gas - cost) cost = m.frame.gas := by
    rw [Quantity.satAdd, Nat.sub_add_cancel hle, min_eq_left hgas]
  rw [hpaid.journal_eq, hpaid.frame_eq]
  show s.gas schedule store m.frame m.journal (Quantity.satAdd (m.frame.gas - cost) cost) = _
  rw [havailable, h]

end CallScheme

/-! ## Calls that are performed -/

/-- What a call reads is there: memory of which no more was paid for than can be, the balance of the
own account and the code of the target. -/
structure Machine.CallReads (c : Context) (m : Machine) : Prop where
  memory : m.frame.memory.Tame
  balance : ∃ balance, m.journal.balance c.store m.frame.message.recipient = .ok balance
  code : ∀ w ∈ m.frame.stack.items[1]?, ∃ code, m.journal.code c.store (Word.toAddress w) = .ok code

theorem Machine.MaySpawn.quiet {c : Context} {m m₁ : Machine} {value : Word}
    (h : m.MaySpawn c value) (hm : m.Quiet m₁) : m₁.MaySpawn c value := by
  obtain ⟨⟨balance, hbalance, hle⟩, hdepth⟩ := h
  rw [← hm.journal_eq, ← hm.frame_quiet.message_eq] at hbalance
  rw [← hm.frame_quiet.message_eq] at hdepth
  exact ⟨⟨balance, hbalance, hle⟩, hdepth⟩

namespace Exec

variable {α β : Type} {c : Context} {m m₁ : Machine} {s : CallScheme} {value offset len : Word}
  {given : Nat}

/-- How a call ends that passes a value and gives its callee so much gas. -/
inductive CallEnds (c : Context) (m : Machine) (value : Word) (given : Nat) :
    Except ExitReason Control → Machine → Prop
  /-- It waits for its callee. -/
  | waits {m' : Machine} {message : Message} (hspawn : m.MaySpawn c value)
    (hchild : m'.frame.child = some message) (hgiven : message.gas = given)
    (hgas : m'.frame.gas = m.frame.gas) : CallEnds c m value given (.ok .suspend) m'
  /-- It has no callee, and its gas comes back. -/
  | refused {m' : Machine} (hspawn : ¬ m.MaySpawn c value)
    (hgas : m'.frame.gas = Quantity.satAdd m.frame.gas given) :
    CallEnds c m value given (.ok .next) m'
  /-- Something cannot be read. -/
  | fatal {m' : Machine} {e : ExitFatal} (h : ¬ m.CallReads c) :
    CallEnds c m value given (.error (.fatal e)) m'
  /-- It fails with an error that was checked for. -/
  | faulted {m' : Machine} {e : ExitError} (h : e.isOfCheck = true) :
    CallEnds c m value given (.error (.error e)) m'

/-- Going on where a frame may have a child, or where it may not. -/
theorem cannotSpawn_bind_ends {f : Bool → Exec β} {Q : Except ExitReason β → Machine → Prop}
    (herror : ∀ e, (∀ balance, m.journal.balance c.store m.frame.message.recipient ≠ .ok balance) →
      Q (.error (.fatal e)) m)
    (hmay : m.MaySpawn c value → Ends (f false c) m Q)
    (hmaynot : ¬ m.MaySpawn c value → Ends (f true c) m Q) :
    Ends ((cannotSpawn value >>= f) c) m Q := by
  refine Ends.bind (bind_ends_of_ok rfl (reading_bind_ends_of_run herror fun balance hbalance => ?_))
  refine bind_ends_of_ok rfl ?_
  have hiff : (balance < value || c.config.callStackLimit ≤ m.frame.message.depth) = false ↔
      m.MaySpawn c value := by
    rw [Bool.or_eq_false_iff, decide_eq_false_iff_not, decide_eq_false_iff_not, BitVec.not_lt,
      not_le]
    refine ⟨fun h => ⟨⟨balance, hbalance, h.1⟩, h.2⟩, fun h => ⟨?_, h.depth_lt⟩⟩
    obtain ⟨balance', hbalance', hle⟩ := h.affords
    cases hbalance.symm.trans hbalance'
    exact hle
  show Ends (f (balance < value || c.config.callStackLimit ≤ m.frame.message.depth) c) m Q
  cases hrefused : (balance < value || c.config.callStackLimit ≤ m.frame.message.depth) with
  | false => exact hmay (hiff.mp hrefused)
  | true => exact hmaynot fun h => Bool.false_ne_true ((hiff.mpr h).symm.trans hrefused)

/-- Pushing a word and going on. -/
theorem push_next_ends {w : Word} {Q : Except ExitReason Control → Machine → Prop}
    (herror : Q (.error (.error .stackOverflow)) m)
    (hok : ∀ stack, Q (.ok .next) (m.restack stack)) :
    Ends ((do
      push w
      return .next : Exec Control) c) m Q := by
  refine Ends.bind (bind_ends_of_ok rfl ?_)
  cases hpush : m.frame.stack.push w with
  | ok stack => exact hok stack
  | error e =>
    rw [Stack.push] at hpush
    split at hpush
    · cases hpush
      exact herror
    · cases hpush

/-- The end of a call, after what leaves the machine quiet. -/
theorem spawnCall_ends {w : Word} {input : Bytes} {resume : Resume} (h : m.Quiet m₁)
    (htarget : m.frame.stack.items[1]? = some w) :
    Ends (spawnCall s value (Word.toAddress w) input given resume c) m₁
      (CallEnds c m value given) := by
  have h₂ : m.Quiet { m₁ with frame := { m₁.frame with returnData := [] } } := h.trans ⟨rfl, rfl⟩
  refine bind_ends_of_ok rfl (cannotSpawn_bind_ends (fun e hnone => .fatal fun hreads => ?_)
    (fun hmay => ?_) fun hmaynot => ?_)
  · obtain ⟨balance, hbalance⟩ := hreads.balance
    rw [← h₂.journal_eq, ← h₂.frame_quiet.message_eq] at hbalance
    exact hnone balance hbalance
  · refine reading_bind_ends_of_run (fun e hnone => .fatal fun hreads => ?_) fun code _ => ?_
    · obtain ⟨code, hcode⟩ := hreads.code w htarget
      rw [← h₂.journal_eq] at hcode
      exact hnone code hcode
    · exact .waits (hmay.of_quiet h₂) rfl (by cases s <;> rfl) h₂.frame_quiet.gas_eq
  · refine bind_ends_of_ok rfl (push_next_ends (.faulted rfl) fun stack => .refused ?_ ?_)
    · exact fun h => hmaynot (h.quiet h₂)
    · exact congrArg (Quantity.satAdd · given) h₂.frame_quiet.gas_eq

/-- Going on with the top item, or not where there is none. -/
theorem pop_bind_ends_of_run {f : Word → Exec β} {Q : Except ExitReason β → Machine → Prop}
    (herror : Q (.error (.error .stackUnderflow)) m)
    (hok : ∀ w m₁, m.Quiet m₁ → m.frame.stack.items = w :: m₁.frame.stack.items →
      Ends (f w c) m₁ Q) : Ends ((pop >>= f) c) m Q :=
  pop_bind_restacks (fun _ => herror) fun w _ hitems => hok w _ ⟨rfl, rfl⟩ hitems

/-- Going on with the value of a call, over the operands below it. -/
theorem popValue_bind_ends_of_run {f : Word → Exec β} {Q : Except ExitReason β → Machine → Prop}
    (herror : Q (.error (.error .stackUnderflow)) m)
    (hok : ∀ value m₁, m.Quiet m₁ →
      m.frame.stack.items.drop (s.inputPosition - 2) = m₁.frame.stack.items →
      (s.takesValue → m.frame.stack.items[0]? = some value) → (s.takesValue = false → value = 0) →
        Ends (f value c) m₁ Q) :
    Ends ((if s.takesValue then pop >>= f else pure 0 >>= f) c) m Q := by
  rw [CallScheme.inputPosition] at hok
  by_cases htakes : s.takesValue
  · rw [if_pos htakes]
    rw [if_pos htakes] at hok
    refine pop_bind_ends_of_run herror fun value m₁ h₁ hitems => hok value m₁ h₁ ?_ ?_ ?_
    · rw [hitems]
      rfl
    · rw [hitems]
      exact fun _ => rfl
    · simp [htakes]
  · rw [if_neg htakes]
    rw [if_neg htakes] at hok
    exact bind_ends_of_ok rfl (hok 0 m (.refl m) rfl (fun h => absurd h htakes) fun _ => rfl)

/-- Growing the memory over a region that is addressable, and going on. -/
theorem growMemory_bind_ends {f : Unit → Exec β} {Q : Except ExitReason β → Machine → Prop}
    (h : Memory.Addressable offset len) (hok : ∀ m₁, m.Quiet m₁ → Ends (f () c) m₁ Q) :
    Ends ((growMemory offset len >>= f) c) m Q := by
  obtain ⟨memory, hmemory⟩ := m.frame.memory.exists_resizeOffset h
  refine Ends.bind (bind_ends_of_ok rfl (lift_bind_ends (fun e he => ?_) fun grown _ => ?_))
  · rw [hmemory] at he
    cases he
  · exact hok _ ⟨rfl, rfl⟩

/-- Going on with a word as a quantity, or not where it is none. -/
theorem quantity_bind_ends_of_run {w : Word} {f : Nat → Exec β}
    {Q : Except ExitReason β → Machine → Prop}
    (herror : Quantity.max < w.toNat → Q (.error (.fatal .notSupported)) m)
    (hok : ∀ n, Ends (f n c) m Q) : Ends ((quantity w >>= f) c) m Q := by
  by_cases hle : w.toNat ≤ Quantity.max
  · rw [quantity_eq hle]
    exact bind_ends_of_ok rfl (hok _)
  · have hnone : w.toQuantity? = none := if_neg hle
    rw [quantity, hnone]
    exact herror (not_le.mp hle)

/-- Going on with the offset and the length of a region, or not where they are no quantities. -/
theorem quantities_bind_ends {f : Nat → Nat → Exec β} {Q : Except ExitReason β → Machine → Prop}
    (hlen : len ≠ 0) (herror : ¬ Memory.Reached offset len → Q (.error (.fatal .notSupported)) m)
    (hok : ∀ start length, Ends (f start length c) m Q) :
    Ends ((do
      let start ← quantity offset
      let length ← quantity len
      f start length : Exec β) c) m Q := by
  refine quantity_bind_ends_of_run (fun hlt => herror fun hreached => ?_) fun start =>
    quantity_bind_ends_of_run (fun hlt => herror fun hreached => ?_) fun length => hok start length
  · have hle := hreached.le_max hlen
    omega
  · have hle := hreached.le_max hlen
    omega

/-- Reading a region that is addressable, and going on. -/
theorem readMemory_bind_ends {f : Bytes → Exec β} {Q : Except ExitReason β → Machine → Prop}
    (h : Memory.Addressable offset len)
    (herror : ∀ m₁, ¬ Memory.Reached offset len → Q (.error (.fatal .notSupported)) m₁)
    (hok : ∀ data m₁, m.Quiet m₁ → Ends (f data c) m₁ Q) :
    Ends ((readMemory offset len >>= f) c) m Q := by
  refine Ends.bind (growMemory_bind_ends h fun m₁ h₁ => ?_)
  by_cases hlen : len = 0
  · rw [if_pos hlen]
    exact hok [] m₁ h₁
  · rw [if_neg hlen]
    exact quantities_bind_ends hlen (herror m₁) fun start length => hok _ m₁ h₁

/-- **A call** over regions that are addressable and with gas that can be split waits for its callee,
or is refused, or fails fatally for what it cannot read. -/
theorem call_ends {split : CallGas}
    (hsplit : s.gas c.config.schedule c.store m.frame m.journal
      (Quantity.satAdd m.frame.gas m.frame.currentCost) = .ok split)
    (hvalue : s.valueOperand m.frame = .ok value)
    (hregions : ∀ region ∈ s.regions m.frame.stack.items, Memory.Addressable region.1 region.2)
    (hreached : m.frame.memory.Tame → ∀ region ∈ s.regions m.frame.stack.items,
      Memory.Reached region.1 region.2) :
    Ends (call s c) m (CallEnds c m value (split.given value)) := by
  refine bind_ends_of_ok rfl (bind_ends_of_ok rfl (bind_ends_of_ok rfl ?_))
  refine lift_bind_ends (fun e he => ?_) fun split' hsplit' => ?_
  · rw [hsplit] at he
    cases he
  cases hsplit.symm.trans hsplit'
  refine pop_bind_ends_of_run (.faulted rfl) fun w m₀ h₀ hw => ?_
  refine pop_bind_ends_of_run (.faulted rfl) fun target m₁ h₁ htarget => ?_
  refine popValue_bind_ends_of_run (.faulted rfl) fun value' m₂ h₂ hs₂ hpopped hzero => ?_
  refine pop_bind_ends_of_run (.faulted rfl) fun inOffset m₃ h₃ hinOffset => ?_
  refine pop_bind_ends_of_run (.faulted rfl) fun inLen m₄ h₄ hinLen => ?_
  refine pop_bind_ends_of_run (.faulted rfl) fun outOffset m₅ h₅ houtOffset => ?_
  refine pop_bind_ends_of_run (.faulted rfl) fun outLen m₆ h₆ houtLen => ?_
  replace h₆ := (((((h₀.trans h₁).trans h₂).trans h₃).trans h₄).trans h₅).trans h₆
  -- the items that were popped are the operands that the price was computed from
  rw [htarget] at hw
  have hitem : s.takesValue → m.frame.stack.items[2]? = some value' := by
    rw [hw]
    exact hpopped
  obtain rfl : value' = value := by
    rw [CallScheme.valueOperand] at hvalue
    by_cases htakes : s.takesValue
    · rw [if_pos htakes, Frame.operand, Stack.peek, hitem htakes] at hvalue
      exact Except.ok.inj hvalue
    · rw [if_neg htakes] at hvalue
      exact (hzero (Bool.eq_false_of_not_eq_true htakes)).trans (Except.ok.inj hvalue)
  have hdrop : m.frame.stack.items.drop s.inputPosition =
      inOffset :: inLen :: outOffset :: outLen :: m₆.frame.stack.items := by
    rw [← houtLen, ← houtOffset, ← hinLen, ← hinOffset, ← hs₂, hw]
    cases s <;> rfl
  have hnamed := CallScheme.regions_of_drop hdrop
  rw [hnamed, List.forall_mem_cons, List.forall_mem_singleton] at hregions
  -- a region that cannot be addressed is not read
  have hfatal {m' : Machine} {e : ExitFatal} {region : Word × Word}
      (hmem : region ∈ [(inOffset, inLen), (outOffset, outLen)])
      (h : ¬ Memory.Reached region.1 region.2) :
      CallEnds c m value' (split.given value') (.error (.fatal e)) m' :=
    .fatal fun hreads => h (hreached hreads.memory region (hnamed ▸ hmem))
  have hsecond : m.frame.stack.items[1]? = some target := by
    rw [hw]
    rfl
  refine growMemory_bind_ends hregions.2 fun m₇ h₇ => ?_
  replace h₇ := h₆.trans h₇
  refine readMemory_bind_ends hregions.1 (fun m₈ => hfatal List.mem_cons_self) fun input m₈ h₈ => ?_
  replace h₈ := h₇.trans h₈
  -- an output of no length needs no place in memory, so its offset is not read
  split
  · exact bind_ends_of_ok rfl (spawnCall_ends h₈ hsecond)
  · rename_i hlen
    exact quantities_bind_ends hlen (hfatal (List.mem_cons_of_mem _ List.mem_cons_self))
      fun start length => bind_ends_of_ok rfl (spawnCall_ends h₈ hsecond)

end Exec

/-! ## Steps -/

section
variable {c : Context} {m m₁ : Machine} {s : CallScheme} {cost : Nat} {value : Word}

/-- Paying leaves the state and the message alone. -/
theorem Machine.Paid.maySpawn_iff (h : m.Paid cost m₁) :
    m₁.MaySpawn c value ↔ m.MaySpawn c value := by
  have hmessage : m₁.frame.message = m.frame.message := by rw [h.frame_eq]
  constructor
  · rintro ⟨haffords, hdepth⟩
    rw [h.journal_eq, hmessage] at haffords
    rw [hmessage] at hdepth
    exact ⟨haffords, hdepth⟩
  · rintro ⟨haffords, hdepth⟩
    rw [← h.journal_eq, ← hmessage] at haffords
    rw [← hmessage] at hdepth
    exact ⟨haffords, hdepth⟩

theorem Machine.Paid.callReads (h : m.Paid cost m₁) (hreads : m.CallReads c) :
    m₁.CallReads c := by
  obtain ⟨hmemory, hbalance, hcode⟩ := hreads
  rw [← h.journal_eq] at hbalance hcode
  constructor
  · rw [h.frame_eq]
    exact hmemory
  · rw [h.frame_eq]
    exact hbalance
  · rw [h.frame_eq]
    exact hcode

end

namespace Run

variable {c : Context} {m : Machine} {s : CallScheme} {cost : Nat}

open Instruction

/-- How a step ends that makes a call, given its bill and the part of the gas for its callee. -/
inductive CallSplit (c : Context) (m : Machine) (b : CallBill) (k : Nat) :
    Except ExitFatal Unit → Machine → Prop
  /-- The frame waits for the callee, which starts with its part and the stipend. -/
  | waits {m' : Machine} {message : Message} (hspawn : m.MaySpawn c b.value)
    (hstate : m'.frame.state = .codeSuspended) (hchild : m'.frame.child = some message)
    (hgiven : message.gas = k + b.stipend)
    (hkept : m'.frame.gas = m.frame.gas - b.own c.config.schedule - k) :
    CallSplit c m b k (.ok ()) m'
  /-- The value is not there or the frame stands too deep: the part of the callee comes back, and
  the stipend with it. -/
  | refused {m' : Machine} (hspawn : ¬ m.MaySpawn c b.value)
    (hstate : m'.frame.state = m.frame.state)
    (hkept : m'.frame.gas = m.frame.gas - b.own c.config.schedule + b.stipend) :
    CallSplit c m b k (.ok ()) m'
  | fatal {m' : Machine} {e : ExitFatal} (h : ¬ m.CallReads c) : CallSplit c m b k (.error e) m'

/-- **A call splits its gas exactly.**  Let a call be charged by a frame with gas `g`, and let `own`
be its base price, the price of growing the memory over both regions, the surcharge for a value and,
for a plain call, that for a new account.  Its price is `own + k`, where `k` is what its schedule
gives a callee out of `g - own`.  If the frame waits then, the callee starts with `k` and the
stipend, and the frame keeps `g - own - k`; if the call cannot start, the frame has `g - own` and the
stipend.  Nothing else happens unless something cannot be read.  Where access has the new prices, a
64th of `g - own` stays with the frame. -/
theorem call_splits_exactly (hgas : m.frame.gas ≤ Quantity.max)
    (hpc : m.frame.pc < m.frame.program.size)
    (hi : m.frame.instruction c.instructions = .ok (.call s))
    (hcost : s.cost c.config.schedule c.store m.frame m.journal = .ok cost)
    (hle : cost ≤ m.frame.gas) : ∃ b k,
      s.Bills c.config.schedule c.store m.frame m.journal b ∧
      c.config.schedule.childCall (m.frame.gas - b.own c.config.schedule) b.requested = .ok k ∧
      cost = b.own c.config.schedule + k ∧
      (c.config.schedule.repricesAccess →
        k ≤ (m.frame.gas - b.own c.config.schedule) -
            (m.frame.gas - b.own c.config.schedule) / 64 ∧
          (m.frame.gas - b.own c.config.schedule) / 64 ≤
            m.frame.gas - b.own c.config.schedule - k) ∧
      Ends (step c) m (CallSplit c m b k) := by
  obtain ⟨b, k, hbill, hchild, rfl, hsplit⟩ := CallScheme.exists_bill_of_cost hcost
  have hstipend := b.stipend_le_own c.config.schedule
  -- the sum does not saturate: the frame has paid for the stipend
  have hgiven : (CallGas.mk (b.own c.config.schedule) k).given b.value = k + b.stipend :=
    b.given_eq (by omega)
  refine ⟨b, k, hbill, hchild, rfl, fun hreprices => ?_, ?_⟩
  · rw [Gas.Schedule.childCall, if_pos hreprices, Gas.allButOne64th] at hchild
    have hk := Except.ok.inj hchild
    omega
  -- paying takes gas and nothing else, so the call pops what was priced
  have hperform : Ends ((call s).perform c) m fun r m' => ∃ m₁,
      m.Paid (b.own c.config.schedule + k) m₁ ∧
        Exec.CallEnds c m₁ b.value (k + b.stipend) r m' ∧ Spared ExitReason.isOfPrice r := by
    refine perform_ends_of_charged hcost hle fun m₁ hpaid => ?_
    have hexpansion : m₁.frame.expansion (s.regions m₁.frame.stack.items) = .ok b.expansion := by
      rw [hpaid.frame_eq]
      exact hbill.expansion_eq
    have hvalue : s.valueOperand m₁.frame = .ok b.value := by
      rw [hpaid.frame_eq]
      exact hbill.value_eq
    have hends := Exec.call_ends (CallScheme.gas_of_paid hgas hpaid hsplit) hvalue
      (Frame.addressable_of_expansion hexpansion)
      fun hmemory => Frame.reached_of_expansion hmemory hexpansion
    rw [hgiven] at hends
    exact (hends.and (execute_clear (i := call s) hcost hpaid)).mono fun _ _ hends =>
      ⟨m₁, hpaid, hends⟩
  have hgas₁ {m₁ : Machine} (hpaid : m.Paid (b.own c.config.schedule + k) m₁) :
      m₁.frame.gas = m.frame.gas - (b.own c.config.schedule + k) := by rw [hpaid.frame_eq]
  refine step_ends_of_instruction hpc hi ?_
  refine perform_ends_of (hperform.and (traded_of_instruction hi)) (fun control m' h => ?_)
    (fun reason m' f h hleave => ?_) fun e m' h => ?_
  · obtain ⟨⟨m₁, hpaid, hends, -⟩, htraded⟩ := h
    have hgas₁ := hgas₁ hpaid
    cases hends with
    | waits hspawn hchild hgiven hkept =>
      refine .waits (hpaid.maySpawn_iff.mp hspawn) rfl hchild hgiven ?_
      show m'.frame.gas = _
      omega
    | refused hspawn hkept =>
      refine .refused (fun h => hspawn (hpaid.maySpawn_iff.mpr h))
        (congrArg Place.state htraded.place_eq) ?_
      show m'.frame.gas = _
      rw [Quantity.satAdd] at hkept
      omega
  · obtain ⟨⟨m₁, hpaid, hends, hclear⟩, htraded⟩ := h
    cases hends with
    | fatal => cases hleave
    | faulted hcheck =>
      -- neither what was paid for nor the stack can fail any more
      have hspared := ExitError.isOfCheck_eq_false (htraded.spared _ rfl) (hclear _ rfl)
      exact absurd (hspared.symm.trans hcheck) Bool.false_ne_true
  · obtain ⟨⟨m₁, hpaid, hends, -⟩, -⟩ := h
    cases hends with
    | fatal h => exact .fatal fun hreads => h (hpaid.callReads hreads)

/-! ### A call that passes all its gas on -/

/-- A frame that is about to send 5 out of 10 to account 3, with all the gas that it can ask for. -/
def payer : Machine where
  frame := { Frame.ofMessage {
      kind := .call, sender := 1, recipient := 2, contract := 2, originator := 1, gasPrice := 0,
      value := 0, apparentValue := 0, input := [], code := [0xf1], gas := 100000, depth := 0,
      isStatic := false } ⟨0, 0, 0, 0, 0, #[]⟩ 1024 Quantity.max with
    state := .codeExecuting, stack := ⟨[Word.max, 3, 5, 0, 0, 0, 0], 1017⟩ }
  journal := ((Journal.ofWorld .empty).put (.fresh 2 1 10)).put (.fresh 3 1 0)
  trace := .off

/-- The call pays 9700 for itself and its callee gets 88890 of the 90300 that are left, and 2300 on
top; the 64th that stays behind is all that the frame has. -/
theorem call_splits_exactly_of_payer :
    CallScheme.call.cost bareContext.config.schedule bareContext.store payer.frame payer.journal =
      .ok (9700 + 88890) ∧
    (stateAfter (step bareContext) payer).frame.gas = 90300 / 64 ∧
    (stateAfter (step bareContext) payer).frame.child.map Message.gas = some (88890 + 2300) ∧
    ∃ b k, CallScheme.call.Bills bareContext.config.schedule bareContext.store payer.frame
        payer.journal b ∧
      9700 + 88890 = b.own bareContext.config.schedule + k ∧
      Ends (step bareContext) payer (CallSplit bareContext payer b k) := by
  have hcost : CallScheme.call.cost bareContext.config.schedule bareContext.store payer.frame
      payer.journal = .ok (9700 + 88890) := by
    decide +kernel
  have hi : payer.frame.instruction bareContext.instructions = .ok (.call .call) := by
    decide +kernel
  have hpc : payer.frame.pc < payer.frame.program.size := by decide +kernel
  have hgas : payer.frame.gas = 100000 := rfl
  have hends : (stateAfter (step bareContext) payer).frame.gas = 90300 / 64 ∧
      (stateAfter (step bareContext) payer).frame.child.map Message.gas = some (88890 + 2300) := by
    decide +kernel
  generalize payer = m at *
  obtain ⟨b, k, hbill, -, hsum, -, hsplit⟩ :=
    call_splits_exactly (by rw [hgas]; decide) hpc hi hcost (by rw [hgas]; decide)
  exact ⟨hcost, hends.1, hends.2, b, k, hbill, hsum, hsplit⟩

end Run
end Ethereum
