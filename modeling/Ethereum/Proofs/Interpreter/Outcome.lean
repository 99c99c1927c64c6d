/-
# What instructions do

An instruction that is executed ends in one of a few ways (`Instruction.Outcome`).  Most
are quiet; the others write one slot of the own account, leave a log, spawn a child or
fail to, or move the own balance and mark the account.  Whatever cannot be read or
addressed ends fatally, and then nothing changed but the innermost scope of the journal.
`Instruction.execute_outcome` is the one place where the instructions are gone through:
what holds of all of them is read off the outcomes.
-/

import Mathlib
import Ethereum.Proofs.Interpreter.Quiet
import Ethereum.Proofs.State.Changing

namespace Ethereum

/-- Where a frame creates a contract, given the nonce of its account. -/
def Frame.creationAddress (f : Frame) (initCode : Bytes) (nonce : Nat) : Option Word → Address
  | none => (CreateScheme.legacy f.message.recipient nonce).address
  | some salt => (CreateScheme.create2 f.message.recipient (keccak initCode) salt).address

/-- The message by which a frame creates a contract. -/
def Frame.creationMessage (f : Frame) (value : Word) (initCode : Bytes) (address : Address)
    (gas : Nat) : Message where
  kind := .creation
  sender := f.message.recipient
  recipient := address
  contract := address
  originator := f.message.originator
  gasPrice := f.message.gasPrice
  value
  apparentValue := value
  input := []
  code := initCode
  gas
  depth := f.message.depth + 1
  isStatic := false

/-- The frame that waits for the contract it creates, with the gas of the creation taken
off. -/
def Frame.creating (f : Frame) (value : Word) (initCode : Bytes) (address : Address) (gas : Nat) :
    Frame :=
  { f with gas := f.gas - gas }.suspendWith (f.creationMessage value initCode address gas) .create

/-- The gas that a callee is given with a value. -/
def CallGas.given (g : CallGas) (value : Word) : Nat :=
  if value = 0 then g.child else Quantity.satAdd g.child Gas.callStipend

/-- The frame may have a child that gets a value: its account has that much, and the frame
does not stand too deep. -/
structure Machine.MaySpawn (c : Context) (m : Machine) (value : Word) : Prop where
  affords : ∃ balance, m.journal.balance c.store m.frame.message.recipient = .ok balance ∧
    value ≤ balance
  depth_lt : m.frame.message.depth < c.config.callStackLimit

/-- The end of a call, once its operands are known and its input is read. -/
def Exec.spawnCall (scheme : CallScheme) (value : Word) (target : Address) (input : Bytes)
    (gas : Nat) (resume : Resume) : Exec Control := do
  modifyFrame fun f => { f with returnData := [] }
  if ← cannotSpawn value then
    modifyFrame (·.giveGas gas)
    push 0
    return .next
  let code ← reading (·.code · target)
  modifyFrame fun f => f.suspendWith (callMessage scheme f target value input code gas) resume
  return .suspend

namespace Instruction

/-- How an instruction ends, and what it leaves of a machine. -/
inductive Outcome (c : Context) (m : Machine) :
    Instruction → Except ExitReason Control → Machine → Prop
  | quiet {i : Instruction} {r : Except ExitReason Control} {m' : Machine} (h : m.Quiet m')
    (hr : ∀ control, r = .ok control → control ≠ .suspend ∧ i.endsCode = false) :
    Outcome c m i r m'
  /-- A slot of the own account is written. -/
  | wrote {m' : Machine} (key value : Word) (amount : Int)
    (hwrite : Journal.setSlot c.store m.frame.message.recipient key value m.journal =
      .ok () m'.journal)
    (hframe : (m.frame.addRefund amount).Quiet m'.frame) : Outcome c m sstore (.ok .next) m'
  | logged {n : Fin 5} {m' : Machine} (topics : List Hash) (data : Bytes)
    (hjournal : m'.journal = m.journal)
    (hframe : (m.frame.addLog ⟨m.frame.message.recipient, topics, data⟩).Quiet m'.frame) :
    Outcome c m (log n) (.ok .next) m'
  /-- A contract is about to be created, and the nonce of the own account is raised. -/
  | created {i : Instruction} {m' : Machine} (value : Word) (initCode : Bytes)
    (salt : Option Word) (nonce : Nat) (hi : i = create ∨ i = create2)
    (hspawn : m.MaySpawn c value)
    (hnonce : Journal.incrementNonce c.store m.frame.message.recipient m.journal =
      .ok nonce m'.journal)
    (hframe : (m.frame.creating value initCode (m.frame.creationAddress initCode nonce salt)
      (c.config.schedule.childCreate m.frame.gas)).Quiet m'.frame) :
    Outcome c m i (.ok .suspend) m'
  /-- A call is about to be made. -/
  | called {scheme : CallScheme} {m' : Machine} (target : Address) (value : Word)
    (input code : Bytes) (split : CallGas) (resume : Resume)
    (hsplit : scheme.gas c.config.schedule c.store m.frame m.journal
      (Quantity.satAdd m.frame.gas m.frame.currentCost) = .ok split)
    (hvalue : scheme.valueOperand m.frame = .ok value) (hspawn : m.MaySpawn c value)
    (hjournal : m'.journal = m.journal)
    (hframe : (m.frame.suspendWith (Exec.callMessage scheme m.frame target value input code
      (split.given value)) resume).Quiet m'.frame) : Outcome c m (call scheme) (.ok .suspend) m'
  /-- A call cannot be made, and its gas comes back. -/
  | refused {scheme : CallScheme} {r : Except ExitReason Control} {m' : Machine} (value : Word)
    (split : CallGas) (hr : r ≠ .ok .suspend)
    (hsplit : scheme.gas c.config.schedule c.store m.frame m.journal
      (Quantity.satAdd m.frame.gas m.frame.currentCost) = .ok split)
    (hvalue : scheme.valueOperand m.frame = .ok value) (hjournal : m'.journal = m.journal)
    (hframe : (m.frame.giveGas (split.given value)).Quiet m'.frame) : Outcome c m (call scheme) r m'
  /-- The own balance goes to a beneficiary, and the own account is marked for deletion. -/
  | destroyed {j₁ j₂ : Journal} {m' : Machine} (beneficiary : Address)
    (balance raised lowered : Word)
    (hbalance : m.journal.balance c.store m.frame.message.recipient = .ok balance)
    (hcreate : Journal.getOrCreate c.store beneficiary m.journal = .ok () j₁)
    (hraise : Journal.incrementBalance c.store beneficiary balance j₁ = .ok raised j₂)
    (hlower : Journal.decrementBalance c.store m.frame.message.recipient balance j₂ =
      .ok lowered m'.journal)
    (hframe : (m.frame.addSelfDestruct m.frame.message.recipient).Quiet m'.frame) :
    Outcome c m selfdestruct (.error (.succeed .selfDestructed)) m'
  /-- The state cannot be read.  Nothing changed but the innermost scope. -/
  | fatal {i : Instruction} {e : ExitFatal} {m' : Machine} (h : m.journal.Inner m'.journal) :
    Outcome c m i (.error (.fatal e)) m'

end Instruction

theorem Stack.items_of_pop {s t : Stack} {w : Word} (h : s.pop = .ok (w, t)) :
    s.items = w :: t.items := by
  rw [Stack.pop] at h
  split at h
  · cases h
  · rename_i hitems
    cases h
    exact hitems

theorem Gas.Schedule.childCreate_le (s : Gas.Schedule) (gas : Nat) : s.childCreate gas ≤ gas := by
  rw [Gas.Schedule.childCreate, Gas.allButOne64th]
  split <;> omega

/-- **A charge** takes its cost off the gas, or leaves the frame as it is where there is not
enough. -/
theorem Machine.charge_eq (cost : Nat) (m : Machine) : charge cost m =
    if cost ≤ m.frame.gas then
      .ok () ⟨{ m.frame with gas := m.frame.gas - cost }, m.journal,
        m.trace.emit (.cost cost m.frame.gas)⟩
    else .error .outOfGas ⟨m.frame, m.journal, m.trace.emit (.cost cost m.frame.gas)⟩ := by
  have hemit : emit (.cost cost m.frame.gas) m =
      (.ok () ⟨m.frame, m.journal, m.trace.emit (.cost cost m.frame.gas)⟩ :
        EStateM.Result ExitError Machine Unit) := rfl
  refine (bind_eq_of_ok rfl).trans ((bind_eq_of_ok hemit).trans ?_)
  by_cases h : cost ≤ m.frame.gas
  · have hcharge : m.frame.charge cost = .ok { m.frame with gas := m.frame.gas - cost } := by
      rw [Frame.charge, Gas.pay, if_pos h]
      rfl
    simp only [hcharge, if_pos h]
  · have hcharge : m.frame.charge cost = .error .outOfGas := by
      rw [Frame.charge, Gas.pay, if_neg h]
      rfl
    simp only [hcharge, if_neg h]

/-- A change of the journal that succeeds. -/
theorem Machine.changing_eq {ε α : Type} {error : StateError → ε} {change : Journal.Change α}
    {m : Machine} {a : α} {j : Journal} (h : change m.journal = .ok a j) :
    changing error change m = .ok a { m with journal := j } := by
  rw [changing, h]

/-- **A change of the journal.** -/
theorem Machine.changing_ends {ε α : Type} {error : StateError → ε} {change : Journal.Change α}
    {m : Machine} {Q : Except ε α → Machine → Prop}
    (herror : ∀ e j, change m.journal = .error e j → Q (.error (error e)) { m with journal := j })
    (hok : ∀ a j, change m.journal = .ok a j → Q (.ok a) { m with journal := j }) :
    Ends (changing error change) m Q := by
  rw [Ends, changing]
  cases hchange : change m.journal with
  | ok a j => exact hok a j hchange
  | error e j => exact herror e j hchange

/-- What is needed for a child depends on the state and on the message of the frame. -/
theorem Machine.MaySpawn.of_quiet {c : Context} {m m₁ : Machine} {value : Word}
    (h : m₁.MaySpawn c value) (hm : m.Quiet m₁) : m.MaySpawn c value := by
  obtain ⟨⟨balance, hbalance, hle⟩, hdepth⟩ := h
  rw [hm.journal_eq, hm.frame_quiet.message_eq] at hbalance
  rw [hm.frame_quiet.message_eq] at hdepth
  exact ⟨⟨balance, hbalance, hle⟩, hdepth⟩

namespace Exec

variable {α β : Type} {c : Context} {m m₁ : Machine}

/-! ## Parts of instructions -/

theorem reading_eq {read : Journal → Store → Except StateError α} {a : α}
    (h : read m.journal c.store = .ok a) : reading read c m = .ok a m := by
  rw [reading, h]

/-- The top item is taken off the stack. -/
theorem pop_eq {w : Word} {rest : List Word} (hitems : m.frame.stack.items = w :: rest) :
    pop c m = .ok w
      { m with frame := { m.frame with stack := ⟨rest, m.frame.stack.room + 1⟩ } } := by
  have hpop : (liftM m.frame.stack.pop : Exec (Word × Stack)) c m =
      .ok (w, ⟨rest, m.frame.stack.room + 1⟩) m := by
    rw [Stack.pop, hitems]
    rfl
  have hframe : frame c m = .ok m.frame m := rfl
  rw [pop, reader_bind_eq_of_ok hframe, reader_bind_eq_of_ok hpop]
  rfl

/-- **Going on with a read**, or not where it fails. -/
theorem reading_bind_ends_of_run {read : Journal → Store → Except StateError α} {f : α → Exec β}
    {Q : Except ExitReason β → Machine → Prop}
    (herror : ∀ e, (∀ a, read m.journal c.store ≠ .ok a) → Q (.error (.fatal e)) m)
    (hok : ∀ a, read m.journal c.store = .ok a → Ends (f a c) m Q) :
    Ends ((reading read >>= f) c) m Q := by
  refine Ends.bind ?_
  rw [Ends, reading]
  cases hread : read m.journal c.store with
  | ok a => exact hok a hread
  | error e =>
    refine herror e.toFatal fun a ha => ?_
    rw [hread] at ha
    cases ha

/-- **Going on after a read.** -/
theorem reading_bind_ends {read : Journal → Store → Except StateError α} {f : α → Exec β}
    {Q : Except ExitReason β → Machine → Prop} (herror : ∀ e, Q (.error (.fatal e)) m)
    (hok : ∀ a, read m.journal c.store = .ok a → Ends (f a c) m Q) :
    Ends ((reading read >>= f) c) m Q :=
  reading_bind_ends_of_run (fun e _ => herror e) hok

/-- Going on with what a computation gives. -/
theorem lift_bind_ends {x : Except ExitReason α} {f : α → Exec β}
    {Q : Except ExitReason β → Machine → Prop} (herror : ∀ e, x = .error e → Q (.error e) m)
    (hok : ∀ a, x = .ok a → Ends (f a c) m Q) : Ends (((liftM x : Exec α) >>= f) c) m Q := by
  refine Ends.bind ?_
  cases x with
  | ok a => exact hok a rfl
  | error e => exact herror e rfl

/-- **Going on with the top item.** -/
theorem pop_bind_ends {f : Word → Exec β} {Q : Except ExitReason β → Machine → Prop}
    (herror : ∀ e, Q (.error e) m)
    (hok : ∀ w m₁, m.Quiet m₁ → m.frame.stack.items = w :: m₁.frame.stack.items →
      Ends (f w c) m₁ Q) : Ends ((pop >>= f) c) m Q := by
  refine Ends.bind (bind_ends_of_ok rfl (lift_bind_ends (fun e _ => herror e) fun x hx => ?_))
  refine bind_ends_of_ok rfl (hok x.1 _ ⟨rfl, rfl⟩ ?_)
  cases hpop : m.frame.stack.pop with
  | error e =>
    rw [hpop] at hx
    cases hx
  | ok popped =>
    rw [hpop] at hx
    cases hx
    exact Stack.items_of_pop hpop

/-- Going on with the value operand of a call, once the two above it were taken. -/
theorem popValue_bind_ends {scheme : CallScheme} {f : Word → Exec β}
    {Q : Except ExitReason β → Machine → Prop} (herror : ∀ e, Q (.error e) m)
    (hok : ∀ value m₁, m.Quiet m₁ →
      (scheme.takesValue → m.frame.stack.items = value :: m₁.frame.stack.items) →
      (scheme.takesValue = false → value = 0) → Ends (f value c) m₁ Q) :
    Ends ((if scheme.takesValue then pop >>= f else pure 0 >>= f) c) m Q := by
  by_cases h : scheme.takesValue
  · rw [if_pos h]
    refine pop_bind_ends herror fun value m₁ h₁ hitems => hok value m₁ h₁ (fun _ => hitems) ?_
    simp [h]
  · rw [if_neg h]
    exact bind_ends_of_ok rfl (hok 0 m (.refl m) (fun h' => absurd h' h) fun _ => rfl)

/-- A frame that can spawn may. -/
theorem cannotSpawn_ends (value : Word) : Ends (cannotSpawn value c) m fun r m' => m' = m ∧
    (r = .ok false → m.MaySpawn c value) := by
  refine bind_ends_of_ok rfl (reading_bind_ends (fun e => ⟨rfl, nofun⟩) fun balance hbalance => ?_)
  refine ⟨rfl, fun hr => ?_⟩
  obtain ⟨hpays, hdepth⟩ := Bool.or_eq_false_iff.mp (Except.ok.inj hr)
  exact ⟨⟨balance, hbalance, BitVec.not_lt.mp (of_decide_eq_false hpays)⟩,
    not_le.mp (of_decide_eq_false hdepth)⟩

end Exec

namespace Instruction

variable {c : Context} {m m₁ m' : Machine}

open Exec

theorem sstore_outcome : Ends (sstore.execute c) m (Outcome c m sstore) := by
  refine Ends.bind ?_
  refine quietly_pop.bind_ends (fun e m₁ h₁ => .quiet h₁ nofun) fun key m₁ h₁ => ?_
  refine quietly_pop.bind_ends (fun e m₂ h₂ => .quiet (h₁.trans h₂) nofun) fun value m₂ h₂ => ?_
  replace h₂ := h₁.trans h₂
  refine bind_ends_of_ok rfl ?_
  refine reading_bind_ends (fun e => .quiet h₂ nofun) fun current hcurrent => ?_
  refine bind_ends_of_ok rfl (bind_ends_of_ok rfl
    (Machine.changing_ends (fun e j hj => ?_) fun _ j hj => ?_))
  · refine .fatal ?_
    rw [← h₂.journal_eq]
    exact (Journal.inner_setSlot _ _ _ _ _).of_error hj
  · rw [h₂.frame_quiet.message_eq] at hj
    exact .wrote key value (Gas.sstoreRefund current value) (h₂.journal_eq ▸ hj)
      (h₂.frame_quiet.map (·.addRefund _) fun _ _ _ _ _ => rfl)

theorem log_outcome (n : Fin 5) : Ends ((log n).execute c) m (Outcome c m (log n)) := by
  refine Ends.bind ?_
  refine quietly_pop.bind_ends (fun e m₁ h₁ => .quiet h₁ nofun) fun offset m₁ h₁ => ?_
  refine quietly_pop.bind_ends (fun e m₂ h₂ => .quiet (h₁.trans h₂) nofun) fun len m₂ h₂ => ?_
  replace h₂ := h₁.trans h₂
  refine (quietly_popMany n).bind_ends (fun e m₃ h₃ => .quiet (h₂.trans h₃) nofun)
    fun topics m₃ h₃ => ?_
  replace h₃ := h₂.trans h₃
  refine (quietly_readMemory offset len).bind_ends (fun e m₄ h₄ => .quiet (h₃.trans h₄) nofun)
    fun data m₄ h₄ => ?_
  replace h₄ := h₃.trans h₄
  exact .logged topics data h₄.journal_eq
    (h₄.frame_quiet.map (fun f => f.addLog ⟨f.message.recipient, topics, data⟩)
      fun _ _ _ _ _ => rfl)

theorem selfdestruct_outcome :
    Ends (selfdestruct.execute c) m (Outcome c m selfdestruct) := by
  refine Ends.bind ?_
  refine quietly_pop.bind_ends (fun e m₁ h₁ => .quiet h₁ nofun) fun w m₁ h₁ => ?_
  refine bind_ends_of_ok rfl ?_
  refine reading_bind_ends (fun e => .quiet h₁ nofun) fun balance hbalance => ?_
  have hinner {j : Journal} (h : m₁.journal.Inner j) : m.journal.Inner j := by
    rwa [← h₁.journal_eq]
  refine Ends.bind (Machine.changing_ends (fun e j hj => .fatal (hinner ?_)) fun _ j₁ hcreate => ?_)
  · exact (Journal.inner_getOrCreate _ _ _).of_error hj
  have hinner₁ := (Journal.inner_getOrCreate _ _ _).of_ok hcreate
  refine Ends.bind (Machine.changing_ends (fun e j hj => .fatal (hinner (hinner₁.trans ?_)))
    fun raised j₂ hraise => ?_)
  · exact (Journal.inner_incrementBalance _ _ _ _).of_error hj
  have hinner₂ := hinner₁.trans ((Journal.inner_incrementBalance _ _ _ _).of_ok hraise)
  refine Ends.bind (Machine.changing_ends (fun e j hj => .fatal (hinner (hinner₂.trans ?_)))
    fun lowered j₃ hlower => ?_)
  · exact (Journal.inner_decrementBalance _ _ _ _).of_error hj
  rw [h₁.frame_quiet.message_eq] at hbalance hlower
  rw [h₁.journal_eq] at hbalance
  exact .destroyed (Word.toAddress w) balance raised lowered hbalance
    (h₁.journal_eq ▸ hcreate) hraise hlower
    (h₁.frame_quiet.map (fun f => f.addSelfDestruct f.message.recipient) fun _ _ _ _ _ => rfl)

theorem create_outcome {i : Instruction} (hi : i = create ∨ i = create2) (value offset len : Word)
    (salt : Option Word) (h : m.Quiet m₁) :
    Ends (Exec.create value offset len salt c) m₁ (Outcome c m i) := by
  refine (quietly_readMemory offset len).bind_ends (fun e m₂ h₂ => .quiet (h.trans h₂) nofun)
    fun initCode m₂ h₂ => ?_
  replace h₂ := h.trans h₂
  have hclear : Quietly (modifyFrame fun f => { f with returnData := [] }) :=
    quietly_modifyFrame fun _ => rfl
  refine hclear.bind_ends (fun e m₃ h₃ => .quiet (h₂.trans h₃) nofun) fun _ m₃ h₃ => ?_
  replace h₃ := h₂.trans h₃
  refine Ends.bind ((cannotSpawn_ends value).mono ?_)
  rintro r m₄ ⟨rfl, hspawn⟩
  cases r with
  | error e => exact .quiet h₃ nofun
  | ok refused =>
    -- the nonce is raised only once nothing stands against the creation
    cases refused with
    | true =>
      refine (quietly_push 0).bind_ends (fun e m₅ h₅ => .quiet (h₃.trans h₅) nofun)
        fun _ m₅ h₅ => .quiet (h₃.trans h₅) fun control hcontrol => ?_
      obtain rfl : control = .next := (Except.ok.inj hcontrol).symm
      exact ⟨nofun, by rcases hi with rfl | rfl <;> rfl⟩
    | false =>
      refine bind_ends_of_ok rfl ?_
      refine Ends.bind (Machine.changing_ends (fun e j hj => .fatal ?_) fun nonce j hj => ?_)
      · rw [← h₃.journal_eq]
        exact (Journal.inner_incrementNonce _ _ _).of_error hj
      · rw [h₃.frame_quiet.message_eq, h₃.journal_eq] at hj
        refine bind_ends_of_ok rfl (Ends.bind ?_)
        rw [Ends, charge, Machine.charge_eq, if_pos (Gas.Schedule.childCreate_le _ _)]
        refine .created value initCode salt nonce hi ((hspawn rfl).of_quiet h₃) hj ?_
        exact h₃.frame_quiet.map (fun f => f.creating value initCode
          (f.creationAddress initCode nonce salt) (c.config.schedule.childCreate f.gas))
          fun _ _ _ _ _ => rfl

theorem spawnCall_outcome {scheme : CallScheme} {split : CallGas} {value : Word} {target : Address}
    {input : Bytes} {resume : Resume}
    (hsplit : scheme.gas c.config.schedule c.store m.frame m.journal
      (Quantity.satAdd m.frame.gas m.frame.currentCost) = .ok split)
    (hvalue : scheme.valueOperand m.frame = .ok value) (h : m.Quiet m₁) :
    Ends (spawnCall scheme value target input (split.given value) resume c) m₁
      (Outcome c m (call scheme)) := by
  have hclear : Quietly (modifyFrame fun f => { f with returnData := [] }) :=
    quietly_modifyFrame fun _ => rfl
  refine hclear.bind_ends (fun e m₂ h₂ => .quiet (h.trans h₂) nofun) fun _ m₂ h₂ => ?_
  replace h₂ := h.trans h₂
  refine Ends.bind ((cannotSpawn_ends value).mono ?_)
  rintro r m₃ ⟨rfl, hspawn⟩
  cases r with
  | error e => exact .quiet h₂ nofun
  | ok refused =>
    cases refused with
    | true =>
      have hgiven := h₂.frame_quiet.map (·.giveGas (split.given value)) fun _ _ _ _ _ => rfl
      refine bind_ends_of_ok rfl ?_
      exact (quietly_push 0).bind_ends
        (fun e m₄ h₄ => .refused value split nofun hsplit hvalue
          (h₄.journal_eq.trans h₂.journal_eq) (hgiven.trans h₄.frame_quiet))
        fun _ m₄ h₄ => .refused value split nofun hsplit hvalue
          (h₄.journal_eq.trans h₂.journal_eq) (hgiven.trans h₄.frame_quiet)
    | false =>
      refine reading_bind_ends (fun e => .quiet h₂ nofun) fun code hcode => ?_
      refine .called target value input code split resume hsplit hvalue ((hspawn rfl).of_quiet h₂)
        h₂.journal_eq ?_
      exact h₂.frame_quiet.map (fun f => f.suspendWith (callMessage scheme f target value input code
        (split.given value)) resume) fun _ _ _ _ _ => rfl

theorem call_outcome (scheme : CallScheme) :
    Ends ((call scheme).execute c) m (Outcome c m (call scheme)) := by
  refine bind_ends_of_ok rfl (bind_ends_of_ok rfl (bind_ends_of_ok rfl ?_))
  refine lift_bind_ends (fun e _ => .quiet (.refl m) nofun) fun split hsplit => ?_
  refine pop_bind_ends (fun e => .quiet (.refl m) nofun) fun w₀ m₀ h₀ hw₀ => ?_
  refine pop_bind_ends (fun e => .quiet h₀ nofun) fun w₁ m₁ h₁ hw₁ => ?_
  replace h₁ := h₀.trans h₁
  refine popValue_bind_ends (fun e => .quiet h₁ nofun) fun value m₂ h₂ hpopped hzero => ?_
  have hvalue : scheme.valueOperand m.frame = .ok value := by
    rw [CallScheme.valueOperand]
    by_cases htakes : scheme.takesValue
    · rw [if_pos htakes, Frame.operand, Stack.peek, hw₀, hw₁, hpopped htakes]
      rfl
    · rw [if_neg htakes, hzero (Bool.eq_false_of_not_eq_true htakes)]
  replace h₂ := h₁.trans h₂
  refine quietly_pop.bind_ends (fun e m₃ h₃ => .quiet (h₂.trans h₃) nofun) fun inOffset m₃ h₃ => ?_
  replace h₃ := h₂.trans h₃
  refine quietly_pop.bind_ends (fun e m₄ h₄ => .quiet (h₃.trans h₄) nofun) fun inLen m₄ h₄ => ?_
  replace h₄ := h₃.trans h₄
  refine quietly_pop.bind_ends (fun e m₅ h₅ => .quiet (h₄.trans h₅) nofun) fun outOffset m₅ h₅ => ?_
  replace h₅ := h₄.trans h₅
  refine quietly_pop.bind_ends (fun e m₆ h₆ => .quiet (h₅.trans h₆) nofun) fun outLen m₆ h₆ => ?_
  replace h₆ := h₅.trans h₆
  refine (quietly_growMemory _ _).bind_ends (fun e m₇ h₇ => .quiet (h₆.trans h₇) nofun)
    fun _ m₇ h₇ => ?_
  replace h₇ := h₆.trans h₇
  refine (quietly_readMemory _ _).bind_ends (fun e m₈ h₈ => .quiet (h₇.trans h₈) nofun)
    fun input m₈ h₈ => ?_
  replace h₈ := h₇.trans h₈
  -- an output of no length needs no place in memory, so its offset is not read
  split
  · exact bind_ends_of_ok rfl (spawnCall_outcome hsplit hvalue h₈)
  · refine (quietly_quantity _).bind_ends (fun e m₉ h₉ => .quiet (h₈.trans h₉) nofun)
      fun offset m₉ h₉ => ?_
    replace h₉ := h₈.trans h₉
    refine (quietly_quantity _).bind_ends (fun e m₁₀ h₁₀ => .quiet (h₉.trans h₁₀) nofun)
      fun length m₁₀ h₁₀ => ?_
    exact bind_ends_of_ok rfl (spawnCall_outcome hsplit hvalue (h₉.trans h₁₀))

/-- **What an instruction does.** -/
theorem execute_outcome (i : Instruction) : Ends (i.execute c) m (Outcome c m i) := by
  by_cases h : i.isQuiet
  · refine (quietly_execute h c m).mono ?_
    rintro r m' ⟨hm, hr⟩
    exact .quiet hm hr
  cases i with
  | sstore => exact sstore_outcome
  | log n => exact log_outcome n
  | selfdestruct => exact selfdestruct_outcome
  | call scheme => exact call_outcome scheme
  | create =>
    refine quietly_pop.bind_ends (fun e m₁ h₁ => .quiet h₁ nofun) fun value m₁ h₁ => ?_
    refine quietly_pop.bind_ends (fun e m₂ h₂ => .quiet (h₁.trans h₂) nofun) fun offset m₂ h₂ => ?_
    replace h₂ := h₁.trans h₂
    refine quietly_pop.bind_ends (fun e m₃ h₃ => .quiet (h₂.trans h₃) nofun) fun len m₃ h₃ => ?_
    exact create_outcome (.inl rfl) value offset len none (h₂.trans h₃)
  | create2 =>
    refine quietly_pop.bind_ends (fun e m₁ h₁ => .quiet h₁ nofun) fun value m₁ h₁ => ?_
    refine quietly_pop.bind_ends (fun e m₂ h₂ => .quiet (h₁.trans h₂) nofun) fun offset m₂ h₂ => ?_
    replace h₂ := h₁.trans h₂
    refine quietly_pop.bind_ends (fun e m₃ h₃ => .quiet (h₂.trans h₃) nofun) fun len m₃ h₃ => ?_
    replace h₃ := h₂.trans h₃
    refine quietly_pop.bind_ends (fun e m₄ h₄ => .quiet (h₃.trans h₄) nofun) fun salt m₄ h₄ => ?_
    exact create_outcome (.inr rfl) value offset len (some salt) (h₃.trans h₄)
  | _ => exact absurd rfl h

end Instruction
end Ethereum
