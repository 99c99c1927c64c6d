/-
# Computations that do not fail for the stack

Code stops for its stack when there are too few items or too many (`ExitReason.isOfStack`).  The
price of an instruction is computed from the operands, and nothing else that it is computed
from has to do with the stack: where the operands are there that the instruction takes, its price
does not fail for the stack (`Instruction.spared_cost`).
-/

import Mathlib
import Ethereum.Interpreter.Cost

namespace Ethereum

/-! ## Faults -/

/-- Whether an error tells of too few or of too many items on the stack. -/
def ExitError.isOfStack : ExitError → Bool
  | stackUnderflow | stackOverflow => true
  | _ => false

/-- Whether code stopped for too few or for too many items on the stack. -/
def ExitReason.isOfStack : ExitReason → Bool
  | error e => e.isOfStack
  | _ => false

/-- A computation that does not fail with an error of some kind. -/
def Spared {ε α : Type} (kind : ε → Bool) (x : Except ε α) : Prop :=
  ∀ e, x = .error e → kind e = false

namespace Spared

variable {ε α β : Type} {kind : ε → Bool} {x : Except ε α}

theorem ok (a : α) : Spared kind (.ok a : Except ε α) := nofun

theorem error {e : ε} (h : kind e = false) : Spared kind (.error e : Except ε α) := by
  intro e' he
  rwa [← Except.error.inj he]

theorem bind {f : α → Except ε β} (hx : Spared kind x) (hf : ∀ a, Spared kind (f a)) :
    Spared kind (x >>= f) := by
  cases x with
  | ok a => exact hf a
  | error e => exact error (hx e rfl)

/-- An error of the code, as the reason for which it stopped. -/
theorem reason {kind : ExitReason → Bool} {x : Except ExitError α}
    (hx : Spared (fun e => kind (.error e)) x) : Spared kind (liftM x : Except ExitReason α) := by
  cases x with
  | ok a => exact ok a
  | error e => exact error (hx e rfl)

/-- A state that cannot be read, as the reason for which the code stopped. -/
theorem state {kind : ExitReason → Bool} (hfatal : ∀ e, kind (.fatal e) = false)
    (x : Except StateError α) : Spared kind (liftM x : Except ExitReason α) := by
  cases x with
  | ok a => exact ok a
  | error e => exact error (hfatal e.toFatal)

end Spared

/-! ## Prices -/

namespace Gas

theorem spared_ofOption (price : Option Nat) :
    Spared ExitError.isOfStack (Price.ofOption price) := by
  cases price with
  | some n => exact .ok n
  | none => exact .error rfl

theorem spared_perWord (base rate : Nat) (len : Word) :
    Spared ExitError.isOfStack (perWord base rate len) := by
  rw [perWord]
  split
  · exact spared_ofOption _
  · exact .error rfl

theorem spared_log (topics : Nat) (len : Word) : Spared ExitError.isOfStack (log topics len) := by
  rw [log]
  split
  · exact spared_ofOption _
  · exact .error rfl

theorem spared_memory (a : Word) : Spared ExitError.isOfStack (memory a) := by
  rw [memory]
  split
  · exact spared_ofOption _
  · exact .error rfl

theorem spared_memoryExpansion (current new : Word) :
    Spared ExitError.isOfStack (memoryExpansion current new) := by
  rw [memoryExpansion]
  split
  · exact .ok _
  · exact (spared_memory _).bind fun _ => (spared_memory _).bind fun _ => .ok _

theorem Schedule.spared_childCall (s : Schedule) (available : Nat) (requested : Word) :
    Spared ExitError.isOfStack (s.childCall available requested) := by
  rw [childCall]
  split
  · exact .ok _
  · exact spared_ofOption _

end Gas

namespace Stack

variable {s : Stack} {i : Nat}

theorem exists_peek (h : i < s.length) : ∃ w, s.peek i = .ok w := by
  rw [peek, List.getElem?_eq_getElem h]
  exact ⟨_, rfl⟩

theorem spared_peek (h : i < s.length) : Spared ExitError.isOfStack (s.peek i) := by
  obtain ⟨w, hw⟩ := exists_peek h
  exact hw ▸ .ok w

theorem exists_push {w : Word} (h : 0 < s.room) : ∃ t, s.push w = .ok t ∧ t.items = w :: s.items := by
  obtain ⟨items, _ | room⟩ := s
  · exact absurd h (Nat.lt_irrefl 0)
  · exact ⟨⟨w :: items, room⟩, rfl, rfl⟩

/-- An exchange with the item at a position leaves the items below it as they are. -/
theorem exists_swap (h : i < s.length) : ∃ t, s.swap i = .ok t ∧ t.room = s.room ∧
    t.length = s.length ∧ t.items.drop (i + 1) = s.items.drop (i + 1) := by
  obtain ⟨_ | ⟨top, rest⟩, room⟩ := s
  · exact absurd h (Nat.not_lt_zero i)
  have hitem := List.getElem?_eq_getElem h
  refine ⟨⟨((top :: rest).set i top).set 0 ((top :: rest).get ⟨i, h⟩), room⟩, ?_, rfl, ?_, ?_⟩
  · rw [swap, hitem]
    rfl
  · rw [length, length, List.length_set, List.length_set]
  · rw [List.drop_set_of_lt (Nat.succ_pos i), List.drop_set_of_lt (Nat.lt_succ_self i)]

end Stack

theorem Memory.spared_wordsAfterAccess (m : Memory) (offset len : Word) :
    Spared ExitError.isOfStack (m.wordsAfterAccess offset len) := by
  rw [wordsAfterAccess]
  split
  · exact .ok _
  · split
    · exact .ok _
    · exact .error rfl

theorem Memory.spared_resizeOffset (m : Memory) (offset len : Word) :
    Spared ExitError.isOfStack (m.resizeOffset offset len) := by
  rw [resizeOffset]
  split
  · exact .ok _
  split
  · rw [resizeEnd]
    split
    · exact .ok _
    split
    · exact .ok _
    · exact .error rfl
  · exact .error rfl

namespace Frame

variable {f : Frame}

theorem spared_operand {i : Nat} (h : i < f.stack.length) :
    Spared ExitError.isOfStack (f.operand i) := Stack.spared_peek h

theorem spared_checkNotStatic : Spared ExitError.isOfStack f.checkNotStatic := by
  rw [checkNotStatic]
  split
  · exact .error rfl
  · exact .ok _

theorem spared_withMemory (base : Nat) (offset len : Word) :
    Spared ExitError.isOfStack (f.withMemory base offset len) :=
  ((Memory.spared_wordsAfterAccess _ _ _).bind fun _ => Gas.spared_memoryExpansion _ _).bind
    fun _ => Gas.spared_ofOption _

theorem spared_memoryCost₂ (offset₁ len₁ offset₂ len₂ : Word) :
    Spared ExitError.isOfStack (f.memoryCost₂ offset₁ len₁ offset₂ len₂) :=
  (Memory.spared_wordsAfterAccess _ _ _).bind fun _ =>
    (Memory.spared_wordsAfterAccess _ _ _).bind fun _ => Gas.spared_memoryExpansion _ _

end Frame

namespace CallScheme

/-- The number of items that a call takes. -/
def operands (s : CallScheme) : Nat := if s.takesValue then 7 else 6

variable {s : CallScheme} {f : Frame} {schedule : Gas.Schedule} {store : Store} {j : Journal}

theorem spared_valueOperand (h : s.operands ≤ f.stack.length) :
    Spared ExitError.isOfStack (s.valueOperand f) := by
  rw [valueOperand]
  split
  · rename_i htakes
    rw [operands, if_pos htakes] at h
    exact Frame.spared_operand (by omega)
  · exact .ok _

theorem inputPosition_add_three (s : CallScheme) : s.inputPosition + 3 < s.operands := by
  cases s <;> decide

theorem spared_gas (available : Nat) (h : s.operands ≤ f.stack.length) :
    Spared ExitReason.isOfStack (s.gas schedule store f j available) := by
  have hlast := s.inputPosition_add_three
  have hadd (a b : Nat) : Spared ExitReason.isOfStack (liftM (Gas.add a b)) :=
    .reason (Gas.spared_ofOption _)
  refine .bind (.reason (Frame.spared_operand (by omega))) fun requested => ?_
  refine .bind (.reason (Frame.spared_operand (by omega))) fun target => ?_
  refine .bind (.reason (spared_valueOperand h)) fun value => ?_
  refine .bind (.reason (Frame.spared_operand (by omega))) fun _ => ?_
  refine .bind (.reason (Frame.spared_operand (by omega))) fun _ => ?_
  refine .bind (.reason (Frame.spared_operand (by omega))) fun _ => ?_
  refine .bind (.reason (Frame.spared_operand (by omega))) fun _ => ?_
  refine .bind (.reason (Frame.spared_memoryCost₂ _ _ _ _)) fun memory => ?_
  refine .bind (hadd _ _) fun own => .bind (hadd _ _) fun own => ?_
  have hchild (own : Nat) : Spared ExitReason.isOfStack (do
      return CallGas.mk own (← schedule.childCall (available - own) requested)) :=
    .bind (.reason (Gas.Schedule.spared_childCall _ _ _)) fun _ => .ok _
  dsimp only
  split
  · refine .bind (.state (fun _ => rfl) _) fun found =>
      .bind (.state (fun _ => rfl) _) fun isEmpty => ?_
    split
    · exact .bind (hadd _ _) hchild
    · exact hchild _
  · exact hchild _

theorem spared_cost (h : s.operands ≤ f.stack.length) :
    Spared ExitReason.isOfStack (s.cost schedule store f j) := by
  have hlast := s.inputPosition_add_three
  have hgas : Spared ExitReason.isOfStack (do
      let gas ← s.gas schedule store f j f.gas
      Gas.add gas.own gas.child) :=
    .bind (spared_gas _ h) fun _ => .reason (Gas.spared_ofOption _)
  rw [cost]
  split
  · refine .bind (.reason (Frame.spared_operand (by omega))) fun value => ?_
    split
    · exact .error rfl
    · exact hgas
  · exact hgas

end CallScheme

namespace Instruction

variable {f : Frame} {c : Context} {j : Journal}

@[simp] theorem consumed_unary (op : UnaryOp) : (unary op).consumed = 1 := by cases op <;> rfl
@[simp] theorem consumed_binary (op : BinaryOp) : (binary op).consumed = 2 := by cases op <;> rfl
@[simp] theorem consumed_ternary (op : TernaryOp) : (ternary op).consumed = 3 := by cases op <;> rfl
@[simp] theorem consumed_field (x : FrameField) : (field x).consumed = 0 := by cases x <;> rfl
@[simp] theorem consumed_account (x : AccountField) : (account x).consumed = 1 := by cases x <;> rfl
@[simp] theorem consumed_copy (x : DataSource) : (copy x).consumed = 3 := by cases x <;> rfl
@[simp] theorem consumed_call (s : CallScheme) : (call s).consumed = s.operands := by
  cases s <;> rfl

@[simp] theorem produced_unary (op : UnaryOp) : (unary op).produced = 1 := by cases op <;> rfl
@[simp] theorem produced_binary (op : BinaryOp) : (binary op).produced = 1 := by cases op <;> rfl
@[simp] theorem produced_ternary (op : TernaryOp) : (ternary op).produced = 1 := by cases op <;> rfl
@[simp] theorem produced_field (x : FrameField) : (field x).produced = 1 := by cases x <;> rfl
@[simp] theorem produced_account (x : AccountField) : (account x).produced = 1 := by cases x <;> rfl
@[simp] theorem produced_copy (x : DataSource) : (copy x).produced = 0 := by cases x <;> rfl
@[simp] theorem produced_call (s : CallScheme) : (call s).produced = 1 := by cases s <;> rfl

theorem spared_createCost (base : Nat) (h : 3 ≤ f.stack.length) :
    Spared ExitError.isOfStack (createCost base f) :=
  Frame.spared_checkNotStatic.bind fun _ => (Frame.spared_operand (by omega)).bind fun _ =>
    (Frame.spared_operand (by omega)).bind fun _ => Frame.spared_withMemory _ _ _

/-- **The price of an instruction** whose operands are there does not fail for the stack. -/
theorem spared_cost (i : Instruction) (h : i.consumed ≤ f.stack.length) :
    Spared ExitReason.isOfStack (i.cost c f j) := by
  have operand (k : Nat) (hk : k < i.consumed) :
      Spared ExitReason.isOfStack (liftM (f.operand k)) :=
    .reason (Frame.spared_operand (hk.trans_le h))
  have withMemory (base : Nat) (offset len : Word) :
      Spared ExitReason.isOfStack (liftM (f.withMemory base offset len)) :=
    .reason (Frame.spared_withMemory _ _ _)
  have perWord (base rate : Nat) (len : Word) :
      Spared ExitReason.isOfStack (liftM (Gas.perWord base rate len)) :=
    .reason (Gas.spared_perWord _ _ _)
  have state {α : Type} (x : Except StateError α) : Spared ExitReason.isOfStack (liftM x) :=
    .state (fun _ => rfl) x
  -- each operand that is read is among the items consumed, which are there
  cases i with
  | binary op =>
    rw [consumed_binary] at h
    cases op with
    | exp => exact .reason ((Frame.spared_operand h).bind fun _ => .ok _)
    | _ => exact .ok _
  | account which => cases which <;> exact .ok _
  | sha3 =>
    exact .bind (operand 1 (by decide)) fun len => .bind (perWord _ _ _) fun _ =>
      .bind (operand 0 (by decide)) fun _ => withMemory _ _ _
  | copy source =>
    exact .bind (operand 2 (by simp)) fun len => .bind (perWord _ _ _) fun _ =>
      .bind (operand 0 (by simp)) fun _ => withMemory _ _ _
  | extcodecopy =>
    exact .bind (operand 3 (by decide)) fun len => .bind (perWord _ _ _) fun _ =>
      .bind (operand 1 (by decide)) fun _ => withMemory _ _ _
  | mload | mstore | mstore8 =>
    exact .bind (operand 0 (by decide)) fun _ => withMemory _ _ _
  | ret | revert =>
    exact .bind (operand 0 (by decide)) fun _ => .bind (operand 1 (by decide)) fun _ =>
      withMemory _ _ _
  | sstore =>
    exact .bind (.reason Frame.spared_checkNotStatic) fun _ => .bind (operand 0 (by decide)) fun _ =>
      .bind (operand 1 (by decide)) fun _ => .bind (state _) fun _ => .ok _
  | log n =>
    change n.val + 2 ≤ _ at h
    refine .reason (Frame.spared_checkNotStatic.bind fun _ => ?_)
    refine (Frame.spared_operand (by omega)).bind fun len => (Gas.spared_log _ _).bind fun _ => ?_
    exact (Frame.spared_operand (by omega)).bind fun _ => Frame.spared_withMemory _ _ _
  | create => exact .reason (spared_createCost _ h)
  | create2 =>
    change 4 ≤ _ at h
    exact .bind (operand 2 (by decide)) fun _ => .bind (perWord _ _ _) fun _ =>
      .reason (spared_createCost _ (by omega))
  | call scheme =>
    rw [consumed_call] at h
    exact CallScheme.spared_cost h
  | selfdestruct =>
    exact .bind (.reason Frame.spared_checkNotStatic) fun _ => .bind (operand 0 (by decide)) fun _ =>
      .bind (state _) fun _ => .bind (state _) fun _ => .bind (state _) fun _ => .ok _
  | _ => exact .ok _

end Instruction

end Ethereum
