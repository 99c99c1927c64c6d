/-
# Steps take gas

Every instruction that the code goes on after has a price (`Instruction.one_le_cost`).  A
call that cannot be made gives back what it would have given its callee, the stipend
included, but not the price of the call itself, which is more (`CallScheme.given_lt_cost`).
So every step after which the code executes on takes gas off the frame, and a run of more
steps than there is gas ends (`Run.toHalt_halts`).
-/

import Mathlib
import Ethereum.Proofs.Gas.Exact
import Ethereum.Proofs.Interpreter.Stepping

namespace Ethereum

/-! ## Prices -/

theorem liftM_eq_ok {α : Type} {x : Except ExitError α} {a : α}
    (h : (liftM x : Except ExitReason α) = .ok a) : x = .ok a := by
  cases x with
  | ok b => exact congrArg _ (Except.ok.inj h)
  | error e => cases h

namespace Gas

theorem eq_of_add {a b n : Nat} (h : add a b = .ok n) : n = a + b := by
  rw [add, Quantity.checkedAdd] at h
  split at h
  · exact (Except.ok.inj h).symm
  · cases h

theorem le_of_perWord {base rate n : Nat} {len : Word} (h : perWord base rate len = .ok n) :
    base ≤ n := by
  rw [perWord_eq] at h
  rw [Price.eq_of_exactly h]
  exact Nat.le_add_right base _

theorem le_of_log {topics : Fin 5} {n : Nat} {len : Word} (h : log topics len = .ok n) :
    375 ≤ n := by
  rw [log_eq] at h
  rw [Price.eq_of_exactly h]
  omega

end Gas

theorem Frame.le_of_withMemory {f : Frame} {base n : Nat} {offset len : Word}
    (h : f.withMemory base offset len = .ok n) : base ≤ n := by
  obtain ⟨memory, -, h⟩ := exists_of_bind_eq_ok h
  rw [Gas.eq_of_add h]
  exact Nat.le_add_right base memory

namespace CallScheme

variable {s : CallScheme} {schedule : Gas.Schedule} {store : Store} {f : Frame} {j : Journal}

/-- What a call pays for itself, and the gas that it asks for its callee. -/
def ownGas (s : CallScheme) (schedule : Gas.Schedule) (store : Store) (f : Frame) (j : Journal) :
    Except ExitReason (Nat × Word) := do
  let requested ← f.operand 0
  let target := Word.toAddress (← f.operand 1)
  let value ← s.valueOperand f
  let i := s.inputPosition
  let memory ← f.memoryCost₂ (← f.operand i) (← f.operand (i + 1)) (← f.operand (i + 2))
    (← f.operand (i + 3))
  let transfersValue := value ≠ 0
  let own ← Gas.add schedule.callBase memory
  let own ← Gas.add own (Gas.valueTransfer transfersValue)
  if s = .call then
    let found ← j.exists? store target
    let isEmpty ← j.isEmpty store target
    if schedule.chargesNewAccount transfersValue found isEmpty then
      return (← Gas.add own Gas.newAccount, requested)
  return (own, requested)

/-- Only what is given to the callee depends on the gas that is available. -/
theorem gas_eq (s : CallScheme) (schedule : Gas.Schedule) (store : Store) (f : Frame) (j : Journal)
    (available : Nat) : s.gas schedule store f j available = do
      let (own, requested) ← s.ownGas schedule store f j
      return ⟨own, ← schedule.childCall (available - own) requested⟩ := by
  rw [gas, ownGas]
  simp only [bind_assoc, pure_bind]
  refine bind_congr fun requested => bind_congr fun target => bind_congr fun value => ?_
  refine bind_congr fun _ => bind_congr fun _ => bind_congr fun _ => bind_congr fun _ => ?_
  refine bind_congr fun _ => bind_congr fun _ => bind_congr fun own => ?_
  split
  · simp only [bind_assoc]
    refine bind_congr fun found => bind_congr fun isEmpty => ?_
    split <;> simp only [bind_assoc, pure_bind]
  · rfl

/-- The price of a call itself covers the surcharge for the value. -/
theorem le_of_ownGas {own : Nat} {requested value : Word}
    (h : s.ownGas schedule store f j = .ok (own, requested))
    (hvalue : s.valueOperand f = .ok value) :
    schedule.callBase + Gas.valueTransfer (value ≠ 0) ≤ own := by
  rw [ownGas, hvalue] at h
  obtain ⟨_, -, h⟩ := exists_of_bind_eq_ok h
  obtain ⟨target, -, h⟩ := exists_of_bind_eq_ok h
  obtain ⟨_, hvalue', h⟩ := exists_of_bind_eq_ok h
  cases hvalue'
  obtain ⟨_, -, h⟩ := exists_of_bind_eq_ok h
  obtain ⟨_, -, h⟩ := exists_of_bind_eq_ok h
  obtain ⟨_, -, h⟩ := exists_of_bind_eq_ok h
  obtain ⟨_, -, h⟩ := exists_of_bind_eq_ok h
  obtain ⟨memory, -, h⟩ := exists_of_bind_eq_ok h
  obtain ⟨own₁, hown₁, h⟩ := exists_of_bind_eq_ok h
  obtain ⟨own₂, hown₂, h⟩ := exists_of_bind_eq_ok h
  replace hown₁ := Gas.eq_of_add (liftM_eq_ok hown₁)
  replace hown₂ := Gas.eq_of_add (liftM_eq_ok hown₂)
  -- a new account only adds to this
  have hle : schedule.callBase + Gas.valueTransfer (value ≠ 0) ≤ own₂ := by omega
  dsimp only at h
  split at h
  · obtain ⟨found, -, h⟩ := exists_of_bind_eq_ok h
    obtain ⟨isEmpty, -, h⟩ := exists_of_bind_eq_ok h
    split at h
    · obtain ⟨own₃, hown₃, h⟩ := exists_of_bind_eq_ok h
      replace hown₃ := Gas.eq_of_add (liftM_eq_ok hown₃)
      cases h
      omega
    · cases h
      exact hle
  · cases h
    exact hle

/-- With less gas available a callee is given no more. -/
theorem childCall_mono {a b n k : Nat} {requested : Word} (hab : a ≤ b)
    (ha : schedule.childCall a requested = .ok n) (hb : schedule.childCall b requested = .ok k) :
    n ≤ k := by
  rw [Gas.Schedule.childCall] at ha hb
  split at ha
  · rename_i hreprices
    rw [if_pos hreprices] at hb
    cases ha
    cases hb
    rw [Gas.allButOne64th, Gas.allButOne64th]
    omega
  · rename_i hreprices
    rw [if_neg hreprices, ha] at hb
    exact (Except.ok.inj hb).le

theorem exists_gas_of_cost {cost : Nat} (h : s.cost schedule store f j = .ok cost) :
    ∃ split, s.gas schedule store f j f.gas = .ok split ∧ cost = split.own + split.child := by
  have hpaid (h : (do
      let gas ← s.gas schedule store f j f.gas
      Gas.add gas.own gas.child : Except ExitReason Nat) = .ok cost) :
      ∃ split, s.gas schedule store f j f.gas = .ok split ∧ cost = split.own + split.child := by
    obtain ⟨split, hsplit, h⟩ := exists_of_bind_eq_ok h
    exact ⟨split, hsplit, Gas.eq_of_add (liftM_eq_ok h)⟩
  rw [CallScheme.cost] at h
  dsimp only at h
  split at h
  · obtain ⟨value, -, h⟩ := exists_of_bind_eq_ok h
    split at h
    · obtain ⟨_, hthrow, -⟩ := exists_of_bind_eq_ok h
      cases hthrow
    · exact hpaid h
  · exact hpaid h

/-- **What a call gives its callee** is less than its price, the stipend included, also if it
is reckoned again when less gas is available. -/
theorem given_lt_cost {cost available : Nat} {value : Word} {split : CallGas}
    (hcost : s.cost schedule store f j = .ok cost) (hvalue : s.valueOperand f = .ok value)
    (hle : available ≤ f.gas) (hsplit : s.gas schedule store f j available = .ok split) :
    split.given value < cost := by
  obtain ⟨full, hfull, rfl⟩ := exists_gas_of_cost hcost
  rw [gas_eq] at hfull hsplit
  obtain ⟨⟨own, requested⟩, hown, hfull⟩ := exists_of_bind_eq_ok hfull
  obtain ⟨x, hx, hsplit⟩ := exists_of_bind_eq_ok hsplit
  cases hown.symm.trans hx
  obtain ⟨child, hchild, hfull⟩ := exists_of_bind_eq_ok hfull
  obtain ⟨child', hchild', hsplit⟩ := exists_of_bind_eq_ok hsplit
  cases hfull
  cases hsplit
  have hmono := childCall_mono (Nat.sub_le_sub_right hle own) (liftM_eq_ok hchild')
    (liftM_eq_ok hchild)
  have hbase := le_of_ownGas hown hvalue
  have hcallBase : 40 ≤ schedule.callBase := by cases schedule <;> decide
  rw [CallGas.given]
  by_cases hzero : value = 0
  · rw [if_pos hzero]
    show child' < own + child
    omega
  · rw [if_neg hzero, Quantity.satAdd, Gas.callStipend]
    rw [Gas.valueTransfer, decide_eq_true hzero, if_pos rfl] at hbase
    show min (child' + 2300) Quantity.max < own + child
    omega

theorem one_le_cost {cost : Nat} (h : s.cost schedule store f j = .ok cost) : 1 ≤ cost := by
  obtain ⟨split, hsplit, rfl⟩ := exists_gas_of_cost h
  rw [gas_eq] at hsplit
  obtain ⟨⟨own, requested⟩, hown, hsplit⟩ := exists_of_bind_eq_ok hsplit
  obtain ⟨child, -, hsplit⟩ := exists_of_bind_eq_ok hsplit
  cases hsplit
  have hvalue : ∃ value, s.valueOperand f = .ok value := by
    obtain ⟨_, -, hown⟩ := exists_of_bind_eq_ok hown
    obtain ⟨_, -, hown⟩ := exists_of_bind_eq_ok hown
    obtain ⟨value, hvalue, -⟩ := exists_of_bind_eq_ok hown
    exact ⟨value, liftM_eq_ok hvalue⟩
  obtain ⟨value, hvalue⟩ := hvalue
  have hbase := le_of_ownGas hown hvalue
  have hcallBase : 1 ≤ schedule.callBase := by cases schedule <;> decide
  show 1 ≤ own + child
  omega

end CallScheme

namespace Instruction

variable {c : Context} {f : Frame} {j : Journal} {n : Nat}

theorem one_le_binaryCost {schedule : Gas.Schedule} {op : BinaryOp}
    (h : binaryCost schedule f op = .ok n) : 1 ≤ n := by
  cases op with
  | exp =>
    obtain ⟨e, -, h⟩ := exists_of_bind_eq_ok h
    rw [← Except.ok.inj h, Gas.exp_eq]
    exact (by decide : 1 ≤ 10).trans (Nat.le_add_right 10 _)
  | mul | div | sdiv | mod | smod | signextend =>
    cases h
    decide
  | _ =>
    cases h
    decide

theorem one_le_sstoreCost {store : Store} (h : sstoreCost store f j = .ok n) : 1 ≤ n := by
  obtain ⟨_, -, h⟩ := exists_of_bind_eq_ok h
  obtain ⟨key, -, h⟩ := exists_of_bind_eq_ok h
  obtain ⟨new, -, h⟩ := exists_of_bind_eq_ok h
  obtain ⟨current, -, h⟩ := exists_of_bind_eq_ok h
  cases h
  rw [Gas.sstore]
  split <;> decide

theorem one_le_logCost {topics : Fin 5} (h : logCost topics f = .ok n) : 1 ≤ n := by
  obtain ⟨_, -, h⟩ := exists_of_bind_eq_ok h
  obtain ⟨len, -, h⟩ := exists_of_bind_eq_ok h
  obtain ⟨base, hbase, h⟩ := exists_of_bind_eq_ok h
  obtain ⟨offset, -, h⟩ := exists_of_bind_eq_ok h
  exact (by decide : 1 ≤ 375).trans ((Gas.le_of_log hbase).trans (Frame.le_of_withMemory h))

theorem le_of_createCost {base : Nat} (h : createCost base f = .ok n) : base ≤ n := by
  obtain ⟨_, -, h⟩ := exists_of_bind_eq_ok h
  obtain ⟨offset, -, h⟩ := exists_of_bind_eq_ok h
  obtain ⟨len, -, h⟩ := exists_of_bind_eq_ok h
  exact Frame.le_of_withMemory h

/-- **Every instruction that the code goes on after has a price.** -/
theorem one_le_cost {i : Instruction} (h : i.cost c f j = .ok n) (hi : i.endsCode = false) :
    1 ≤ n := by
  have hmemory {base : Nat} {offset len : Word} (hone : 1 ≤ base)
      (h : (liftM (f.withMemory base offset len) : Except ExitReason Nat) = .ok n) : 1 ≤ n :=
    hone.trans (Frame.le_of_withMemory (liftM_eq_ok h))
  cases i with
  | stop | invalid | ret | revert | selfdestruct => cases hi
  -- these have a constant price
  | unary | ternary | field | calldataload | blockhash | pop | jump | jumpi | jumpdest | push
  | dup | swap =>
    cases h
    decide
  | sload =>
    cases h
    cases c.config.schedule <;> decide
  | account which =>
    cases which <;> cases h
    · cases c.config.schedule <;> decide
    · cases c.config.schedule <;> decide
    · decide
  | binary op => exact one_le_binaryCost (liftM_eq_ok h)
  | sha3 =>
    obtain ⟨len, -, h⟩ := exists_of_bind_eq_ok h
    obtain ⟨base, hbase, h⟩ := exists_of_bind_eq_ok h
    obtain ⟨offset, -, h⟩ := exists_of_bind_eq_ok h
    exact hmemory ((by decide : 1 ≤ 30).trans (Gas.le_of_perWord (liftM_eq_ok hbase))) h
  | copy =>
    obtain ⟨len, -, h⟩ := exists_of_bind_eq_ok h
    obtain ⟨base, hbase, h⟩ := exists_of_bind_eq_ok h
    obtain ⟨offset, -, h⟩ := exists_of_bind_eq_ok h
    exact hmemory ((by decide : 1 ≤ Gas.veryLowTier).trans (Gas.le_of_perWord (liftM_eq_ok hbase))) h
  | extcodecopy =>
    obtain ⟨len, -, h⟩ := exists_of_bind_eq_ok h
    obtain ⟨base, hbase, h⟩ := exists_of_bind_eq_ok h
    obtain ⟨offset, -, h⟩ := exists_of_bind_eq_ok h
    have hextCode : 1 ≤ c.config.schedule.extCode := by cases c.config.schedule <;> decide
    exact hmemory (hextCode.trans (Gas.le_of_perWord (liftM_eq_ok hbase))) h
  | mload | mstore | mstore8 =>
    obtain ⟨offset, -, h⟩ := exists_of_bind_eq_ok h
    exact hmemory (by decide) h
  | sstore => exact one_le_sstoreCost h
  | log => exact one_le_logCost (liftM_eq_ok h)
  | create => exact (by decide : 1 ≤ Gas.create).trans (le_of_createCost (liftM_eq_ok h))
  | create2 =>
    obtain ⟨len, -, h⟩ := exists_of_bind_eq_ok h
    obtain ⟨base, hbase, h⟩ := exists_of_bind_eq_ok h
    exact (by decide : 1 ≤ Gas.create).trans
      ((Gas.le_of_perWord (liftM_eq_ok hbase)).trans (le_of_createCost (liftM_eq_ok h)))
  | call scheme => exact CallScheme.one_le_cost h

end Instruction

/-! ## Steps -/

/-- The gas of a frame and of the child that it is about to run. -/
def Frame.heldGas (f : Frame) : Nat := f.gas + (f.child.map Message.gas).getD 0

theorem Frame.Quiet.heldGas_eq {f f' : Frame} (h : f.Quiet f') : f'.heldGas = f.heldGas := by
  rw [h]
  rfl

/-- Whether the code stopped and the frame is not settled yet. -/
def FrameState.hasStopped : FrameState → Bool
  | codeSuccess | revert | exceptionalHalt => true
  | _ => false

namespace Instruction

variable {c : Context} {m m' : Machine} {i : Instruction}

theorem given_lt_of_paid {scheme : CallScheme} {m₁ : Machine} {cost : Nat} {value : Word}
    {split : CallGas} (hcost : (call scheme).cost c m.frame m.journal = .ok cost)
    (hpaid : m.Paid cost m₁)
    (hsplit : scheme.gas c.config.schedule c.store m₁.frame m₁.journal
      (Quantity.satAdd m₁.frame.gas m₁.frame.currentCost) = .ok split)
    (hvalue : scheme.valueOperand m₁.frame = .ok value) : split.given value < cost := by
  obtain ⟨hle, hjournal, hframe⟩ := hpaid
  rw [hframe] at hsplit hvalue
  rw [hjournal] at hsplit
  refine CallScheme.given_lt_cost hcost hvalue ?_ hsplit
  rw [Quantity.satAdd]
  dsimp only
  omega

/-- **An instruction takes gas** if the code goes on after it, and if the frame suspends, its
child gets no more than was left. -/
theorem Performed.gas_lt {control : Control} (h : Performed c m i (.ok control) m') :
    m'.frame.gas < m.frame.gas ∧ (control = .suspend → m'.frame.heldGas < m.frame.gas) := by
  cases h with
  | @paid cost m₁ _ _ hcost hpaid houtcome =>
    have hle := hpaid.cost_le
    have hgas : m₁.frame.gas = m.frame.gas - cost := by rw [hpaid.frame_eq]
    -- the gas paid is gone in each outcome; what a child or a refused call is given is less
    cases houtcome with
    | quiet h hr =>
      obtain ⟨hcontrol, hends⟩ := hr _ rfl
      have hone := one_le_cost hcost hends
      rw [h.frame_quiet.gas_eq]
      exact ⟨by omega, fun h => absurd h hcontrol⟩
    | wrote key value amount hwrite hframe =>
      have hone := one_le_cost hcost rfl
      have hkept : m'.frame.gas = m₁.frame.gas := hframe.gas_eq
      exact ⟨by omega, nofun⟩
    | logged topics data hjournal hframe =>
      have hone := one_le_cost hcost rfl
      have hkept : m'.frame.gas = m₁.frame.gas := hframe.gas_eq
      exact ⟨by omega, nofun⟩
    | created value initCode salt nonce hi hspawn hnonce hframe =>
      have hone := one_le_cost hcost (by rcases hi with rfl | rfl <;> rfl)
      have hchild := c.config.schedule.childCreate_le m₁.frame.gas
      have hkept : m'.frame.gas = m₁.frame.gas - c.config.schedule.childCreate m₁.frame.gas :=
        hframe.gas_eq
      have hheld : m'.frame.heldGas = m₁.frame.gas - c.config.schedule.childCreate m₁.frame.gas +
        c.config.schedule.childCreate m₁.frame.gas := hframe.heldGas_eq
      exact ⟨by omega, fun _ => by omega⟩
    | @called scheme _ target value input code split resume hsplit hvalue hspawn hjournal hframe =>
      have hgiven := given_lt_of_paid hcost hpaid hsplit hvalue
      have hkept : m'.frame.gas = m₁.frame.gas := hframe.gas_eq
      have hheld : m'.frame.heldGas = m₁.frame.gas + split.given value := by
        rw [hframe.heldGas_eq]
        cases scheme <;> rfl
      exact ⟨by omega, fun _ => by omega⟩
    | refused value split hr hsplit hvalue hjournal hframe =>
      have hgiven := given_lt_of_paid hcost hpaid hsplit hvalue
      have hkept : m'.frame.gas = Quantity.satAdd m₁.frame.gas (split.given value) := hframe.gas_eq
      rw [Quantity.satAdd] at hkept
      exact ⟨by omega, fun h => absurd (congrArg _ h) hr⟩

theorem Performed.gas_le {r : Except ExitReason Control} (h : Performed c m i r m')
    (hr : ∀ e, r ≠ .error (.fatal e)) : m'.frame.gas ≤ m.frame.gas := by
  cases r with
  | ok control => exact h.gas_lt.1.le
  | error reason =>
    cases h with
    | unpaid hjournal hframe => exact hframe ▸ le_rfl
    | @paid cost m₁ _ _ hcost hpaid houtcome =>
      have hle := hpaid.cost_le
      have hgas : m₁.frame.gas = m.frame.gas - cost := by rw [hpaid.frame_eq]
      cases houtcome with
      | quiet h =>
        rw [h.frame_quiet.gas_eq]
        omega
      | refused value split _ hsplit hvalue hjournal hframe =>
        have hgiven := given_lt_of_paid hcost hpaid hsplit hvalue
        have hkept : m'.frame.gas = Quantity.satAdd m₁.frame.gas (split.given value) :=
          hframe.gas_eq
        rw [Quantity.satAdd] at hkept
        omega
      | destroyed beneficiary balance raised lowered hbalance hcreate hraise hlower hframe =>
        have hkept : m'.frame.gas = m₁.frame.gas := hframe.gas_eq
        omega
      | fatal h => exact absurd rfl (hr _)

end Instruction

namespace Run

variable {c : Context} {m m' : Machine}

open Instruction

/-- **A step takes gas**, unless the code stops. -/
theorem Stepped.gas_cases (h : Stepped c m (.ok ()) m') (hstate : m.frame.state = .codeExecuting) :
    (m'.frame.state = .codeExecuting ∧ m'.frame.gas < m.frame.gas) ∨
    (m'.frame.state = .codeSuspended ∧ m'.frame.heldGas < m.frame.gas) ∨
    (m'.frame.state.hasStopped ∧ m'.frame.gas ≤ m.frame.gas) := by
  cases h with
  | past hpc hjournal hframe => exact .inr (.inr (hframe ▸ ⟨rfl, le_rfl⟩))
  | rejected he hjournal hframe => exact .inr (.inr (hframe ▸ ⟨rfl, le_rfl⟩))
  | @continued i control m₁ _ hi h hjournal hframe =>
    obtain ⟨hgas, hheld⟩ := h.gas_lt
    have hkept := (h.kept nofun).state_eq.trans hstate
    rw [hframe]
    cases control with
    | next => exact .inl ⟨hkept, hgas⟩
    | suspend => exact .inr (.inl ⟨rfl, hheld rfl⟩)
    | jump position =>
      rw [Frame.advance]
      split
      · exact .inl ⟨hkept, hgas⟩
      · exact .inr (.inr ⟨rfl, hgas.le⟩)
  | @left i reason m₁ _ hi h hjournal hframe =>
    refine .inr (.inr ?_)
    cases reason with
    | fatal e => cases hframe
    | _ =>
      have hgas := h.gas_le nofun
      rw [← Except.ok.inj hframe]
      exact ⟨rfl, hgas⟩

/-- **The code of a frame stops or suspends the frame** before more steps are made than there
is gas. -/
theorem steps_halts {n : Nat} (hstate : m.frame.state = .codeExecuting) (hn : m.frame.gas < n) :
    Ends (steps n c) m fun r m' => r = .ok () →
      (m'.frame.state = .codeSuspended ∧ m'.frame.heldGas < m.frame.gas) ∨
      (m'.frame.state.hasStopped ∧ m'.frame.gas ≤ m.frame.gas) := by
  induction n generalizing m with
  | zero => exact absurd hn (Nat.not_lt_zero _)
  | succ n ih =>
    refine bind_ends_of_ok rfl ?_
    rw [if_pos hstate]
    refine Ends.bind (step_ends.mono fun r m₁ h => ?_)
    cases r with
    | error => exact nofun
    | ok =>
      rcases h.gas_cases hstate with ⟨hstate₁, hgas⟩ | hstopped
      · refine (ih hstate₁ (by omega)).mono fun r m' h hr => (h hr).imp ?_ ?_
        · exact fun ⟨hsuspended, hheld⟩ => ⟨hsuspended, hheld.trans hgas⟩
        · exact fun ⟨hstopped, hle⟩ => ⟨hstopped, hle.trans hgas.le⟩
      · have hstate₁ : m₁.frame.state ≠ .codeExecuting := by
          rcases hstopped with ⟨hsuspended, -⟩ | ⟨hstopped, -⟩
          · simp [hsuspended]
          · intro hexecuting
            simp [hexecuting, FrameState.hasStopped] at hstopped
        exact .ok (steps_eq_of_ne hstate₁) fun _ => hstopped

theorem toHalt_halts (hstate : m.frame.state = .codeExecuting) :
    Ends (toHalt c) m fun r m' => r = .ok () →
      (m'.frame.state = .codeSuspended ∧ m'.frame.heldGas < m.frame.gas) ∨
      (m'.frame.state.hasStopped ∧ m'.frame.gas ≤ m.frame.gas) :=
  bind_ends_of_ok rfl (steps_halts hstate (Nat.lt_succ_self _))

end Run
end Ethereum
