/-
# Items taken and left

Every instruction declares how many items it takes off the stack and how many it leaves there.
Where the first are there and the second have room, no part of it fails for the stack, and it
takes and leaves just as many, over items that stay as they are (`Exec.Trades`).  Parts that do
not touch the stack trade nothing, parts in sequence add up what they take (`Exec.Trades.bind`),
and one pass over the instructions finds the declared numbers (`Instruction.trades_execute`).
Where a frame stands in its code is left to the steps, also when an instruction fails
(`Frame.place`).
-/

import Mathlib
import Ethereum.Interpreter.Step
import Ethereum.Proofs.Interpreter.Outcome
import Ethereum.Proofs.Interpreter.Sparing

namespace Ethereum

/-! ## Items taken and left -/

/-- Where a frame stands: what instructions leave to the steps, and how far the stack may grow. -/
structure Place where
  program : Program
  pc : Nat
  stackLimit : Nat
  state : FrameState
  exit : Option ExitReason

/-- Where a frame stands. -/
def Frame.place (f : Frame) : Place := ⟨f.program, f.pc, f.stack.limit, f.state, f.exit⟩

namespace Exec

variable {α β : Type} {c : Context} {m m₁ m' : Machine}

/-- How a program ends that takes items off the stack and leaves others there instead. -/
structure Traded (taken : Nat) (left : α → Nat) (m : Machine) (r : Except ExitReason α)
    (m' : Machine) : Prop where
  place_eq : m'.frame.place = m.frame.place
  spared : Spared ExitReason.isOfStack r
  items_eq : ∀ a, r = .ok a → ∃ words : List Word, words.length = left a ∧
    m'.frame.stack.items = words ++ m.frame.stack.items.drop taken

/-- The program takes as many items off the stack as are said and leaves as many as it returns, on
any stack with the first and with room for the second. -/
def Trades (taken : Nat) (left : α → Nat) (p : Exec α) : Prop :=
  ∀ c m, taken ≤ m.frame.stack.length → (∀ a, left a ≤ m.frame.stack.room + taken) →
    Ends (p c) m (Traded taken left m)

/-- The program leaves the stack alone. -/
abbrev Spares (p : Exec α) : Prop := Trades 0 (fun _ => 0) p

theorem Traded.refl {r : Except ExitReason α} (h : Spared ExitReason.isOfStack r) :
    Traded 0 (fun _ => 0) m r m :=
  ⟨rfl, h, fun _ _ => ⟨[], rfl, rfl⟩⟩

/-- **Taking items one after the other**, and leaving some at the end. -/
theorem Trades.bind {p : Exec α} {f : α → Exec β} {k k' : Nat} {left : β → Nat}
    (hp : Trades k' (fun _ => 0) p) (hf : ∀ a, Trades k left (f a)) :
    Trades (k + k') left (p >>= f) := by
  intro c m htaken hleft
  refine Ends.bind ((hp c m (by omega) fun _ => Nat.zero_le _).mono fun r m₁ h₁ => ?_)
  cases r with
  | error e => exact ⟨h₁.place_eq, .error (h₁.spared e rfl), nofun⟩
  | ok a =>
    obtain ⟨words, hwords, hitems⟩ := h₁.items_eq a rfl
    rw [List.length_eq_zero_iff.mp hwords, List.nil_append] at hitems
    have hlimit : m₁.frame.stack.limit = m.frame.stack.limit :=
      congrArg Place.stackLimit h₁.place_eq
    have hlength : m₁.frame.stack.length = m.frame.stack.length - k' := by
      rw [Stack.length, hitems, List.length_drop, Stack.length]
    rw [Stack.limit, Stack.limit] at hlimit
    have hroom (b : β) : left b ≤ m₁.frame.stack.room + k := by
      have := hleft b
      omega
    refine (hf a c m₁ (by omega) hroom).mono fun r m₂ h₂ => ?_
    refine ⟨h₂.place_eq.trans h₁.place_eq, h₂.spared, fun b hb => ?_⟩
    obtain ⟨words, hwords, hitems₂⟩ := h₂.items_eq b hb
    refine ⟨words, hwords, ?_⟩
    rw [hitems₂, hitems, List.drop_drop, Nat.add_comm k']

/-- A program that returns what comes of another one leaves what that one left. -/
theorem Trades.returning {p : Exec α} {g : α → β} {k n : Nat} {left : β → Nat}
    (hp : Trades k (fun _ => n) p) (hg : ∀ a, left (g a) = n) :
    Trades k left (p >>= fun a => pure (g a)) := by
  intro c m htaken hleft
  refine Ends.bind ((hp c m htaken fun a => hg a ▸ hleft (g a)).mono fun r m₁ h₁ => ?_)
  cases r with
  | error e => exact ⟨h₁.place_eq, .error (h₁.spared e rfl), nofun⟩
  | ok a =>
    refine ⟨h₁.place_eq, .ok (g a), fun b hb => ?_⟩
    rw [← Except.ok.inj hb, hg]
    exact h₁.items_eq a rfl

theorem trades_throw {k : Nat} {left : α → Nat} {e : ExitReason} (h : e.isOfStack = false) :
    Trades k left (throw e) :=
  fun _ _ _ _ => ⟨rfl, .error h, nofun⟩

theorem trades_pure {left : α → Nat} {a : α} (h : left a = 0) : Trades 0 left (pure a) :=
  fun _ _ _ _ => ⟨rfl, .ok a, fun _ hb => ⟨[], by rw [← Except.ok.inj hb, h]; rfl, rfl⟩⟩

theorem spares_pure (a : α) : Spares (pure a) := trades_pure rfl

theorem spares_frame : Spares frame := fun _ _ _ _ => .refl (.ok _)

theorem spares_read : Spares (read : Exec Context) := fun _ _ _ _ => .refl (.ok _)

theorem spares_lift {x : Except ExitReason α} (h : Spared ExitReason.isOfStack x) :
    Spares (liftM x : Exec α) := by
  intro c m _ _
  cases x with
  | ok a => exact .refl (.ok a)
  | error e => exact .refl (.error (h e rfl))

theorem spares_liftError {x : Except ExitError α} (h : Spared ExitError.isOfStack x) :
    Spares (liftM x : Exec α) := spares_lift h.reason

theorem spares_modifyFrame {change : Frame → Frame} (hplace : ∀ f, (change f).place = f.place)
    (hitems : ∀ f, (change f).stack.items = f.stack.items) : Spares (modifyFrame change) :=
  fun _ m _ _ => ⟨hplace m.frame, .ok _, fun _ _ => ⟨[], rfl, hitems m.frame⟩⟩

theorem spares_emit (e : Event) : Spares (emit e) :=
  fun _ _ _ _ => ⟨rfl, .ok _, fun _ _ => ⟨[], rfl, rfl⟩⟩

theorem spares_reading (read : Journal → Store → Except StateError α) : Spares (reading read) := by
  intro c m _ _
  rw [Ends, reading]
  cases read m.journal c.store with
  | ok a => exact .refl (.ok a)
  | error e => exact .refl (.error rfl)

theorem spares_changing (change : Store → Journal.Change α) : Spares (changing change) := by
  intro c m _ _
  refine Machine.changing_ends (fun e j _ => ?_) fun a j _ => ?_
  · exact ⟨rfl, .error rfl, nofun⟩
  · exact ⟨rfl, .ok a, fun _ _ => ⟨[], rfl, rfl⟩⟩

theorem spares_charge (cost : Nat) : Spares (charge cost) := by
  intro c m _ _
  rw [Ends, charge, Machine.charge_eq]
  by_cases h : cost ≤ m.frame.gas
  · rw [if_pos h]
    exact ⟨rfl, .ok _, fun _ _ => ⟨[], rfl, rfl⟩⟩
  · rw [if_neg h]
    refine ⟨rfl, .error rfl, ?_⟩
    rintro _ ⟨⟩

/-! ## The stack -/

theorem trades_pop : Trades 1 (fun _ => 0) pop := by
  intro c m htaken _
  cases hitems : m.frame.stack.items with
  | nil =>
    rw [Stack.length, hitems] at htaken
    exact absurd htaken (by decide)
  | cons w rest =>
    have hpop : m.frame.stack.pop = .ok (w, ⟨rest, m.frame.stack.room + 1⟩) := by
      rw [Stack.pop, hitems]
    have hlimit := Stack.limit_pop hpop
    rw [Ends, pop_eq hitems]
    refine ⟨?_, .ok _, fun _ _ => ⟨[], rfl, ?_⟩⟩
    · exact congrArg (fun n => Place.mk _ _ n _ _) hlimit
    · rw [hitems]
      rfl

theorem trades_popMany (n : Nat) : Trades n (fun _ => 0) (popMany n) := by
  induction n with
  | zero => exact spares_pure _
  | succ n ih => exact trades_pop.bind fun _ => ih.returning fun _ => rfl


/-- An operation that puts one stack in place of another. -/
theorem trades_onStack {change : Stack → Except ExitError Stack} {k n : Nat}
    (hchange : ∀ s : Stack, k ≤ s.length → n ≤ s.room + k → ∃ (words : List Word) (s' : Stack),
      change s = .ok s' ∧ s'.limit = s.limit ∧ words.length = n ∧
        s'.items = words ++ s.items.drop k) :
    Trades k (fun _ => n) (onStack change) := by
  intro c m htaken hleft
  obtain ⟨words, s', hs', hlimit, hwords, hitems⟩ := hchange m.frame.stack htaken (hleft ())
  refine bind_ends_of_ok rfl (lift_bind_ends (fun e he => ?_) fun s hs => ?_)
  · rw [hs'] at he
    cases he
  rw [hs'] at hs
  cases hs
  exact ⟨congrArg (fun n => Place.mk _ _ n _ _) hlimit, .ok _, fun _ _ => ⟨words, hwords, hitems⟩⟩

theorem trades_push (w : Word) : Trades 0 (fun _ => 1) (push w) := by
  change Trades 0 (fun _ => 1) (onStack (·.push w))
  refine trades_onStack fun s _ hroom => ?_
  obtain ⟨t, hpush, hitems⟩ := Stack.exists_push (w := w) hroom
  exact ⟨[w], t, hpush, Stack.limit_push hpush, rfl, hitems⟩

theorem trades_dup (n : Nat) : Trades (n + 1) (fun _ => n + 2) (onStack (·.dup n)) := by
  refine trades_onStack fun s hlength hroom => ?_
  obtain ⟨w, hw⟩ := Stack.exists_peek hlength
  obtain ⟨t, hpush, hitems⟩ := Stack.exists_push (s := s) (w := w) (by omega)
  have hdup : s.dup n = .ok t := by
    rw [Stack.dup, hw]
    exact hpush
  refine ⟨w :: s.items.take (n + 1), t, hdup, Stack.limit_push hpush, ?_, ?_⟩
  · rw [List.length_cons, List.length_take, min_eq_left]
    exact hlength
  · rw [hitems, List.cons_append, List.take_append_drop]

theorem trades_swap (n : Nat) : Trades (n + 1) (fun _ => n + 1) (onStack (·.swap n)) := by
  refine trades_onStack fun s hlength _ => ?_
  obtain ⟨t, hswap, hroom, hlen, hdrop⟩ := Stack.exists_swap hlength
  refine ⟨t.items.take (n + 1), t, hswap, ?_, ?_, ?_⟩
  · rw [Stack.limit, Stack.limit, hroom, hlen]
  · rw [List.length_take, min_eq_left]
    exact hlength.trans_eq hlen.symm
  · rw [← hdrop, List.take_append_drop]

/-! ## Parts of instructions -/

theorem spares_growMemory (offset len : Word) : Spares (growMemory offset len) :=
  spares_frame.bind fun _ => (spares_liftError (Memory.spared_resizeOffset _ _ _)).bind fun _ =>
    spares_modifyFrame (fun _ => rfl) fun _ => rfl

theorem spares_quantity (w : Word) : Spares (quantity w) := by
  rw [quantity]
  split
  · exact spares_pure _
  · exact trades_throw rfl

theorem spares_writeMemory (offset : Nat) (bytes : Bytes) (len : Nat) :
    Spares (writeMemory offset bytes len) := by
  refine spares_frame.bind fun f => ?_
  split
  · exact spares_modifyFrame (fun _ => rfl) fun _ => rfl
  · exact trades_throw rfl

theorem spares_copyToMemory (offset dataOffset len : Word) (data : Bytes) :
    Spares (copyToMemory offset dataOffset len data) := by
  rw [copyToMemory]
  split
  · exact spares_pure _
  · exact (spares_quantity _).bind fun _ => (spares_quantity _).bind fun _ =>
      spares_writeMemory _ _ _

theorem spares_readMemory (offset len : Word) : Spares (readMemory offset len) := by
  refine (spares_growMemory _ _).bind fun _ => ?_
  split
  · exact spares_pure _
  · exact (spares_quantity _).bind fun _ => (spares_quantity _).bind fun _ =>
      spares_frame.bind fun _ => spares_pure _

theorem spares_accountField (address : Address) (which : AccountField) :
    Spares (accountField address which) := by
  cases which with
  | balance =>
    rw [accountField]
    exact spares_reading _
  | extcodesize => exact (spares_reading _).bind fun _ => spares_pure _
  | extcodehash =>
    refine (spares_reading _).bind fun found => ?_
    split
    · exact spares_pure _
    · refine (spares_reading _).bind fun isEmpty => ?_
      split
      · exact spares_pure _
      · exact spares_reading _

theorem trades_copyData (source : DataSource) : Trades 3 (fun _ => 0) (copyData source) := by
  refine trades_pop.bind fun _ => trades_pop.bind fun _ => trades_pop.bind fun _ =>
    spares_frame.bind fun _ => ?_
  have hcopy (offset dataOffset len : Word) (data : Bytes) : Spares (do
      growMemory offset len
      copyToMemory offset dataOffset len data) :=
    (spares_growMemory _ _).bind fun _ => spares_copyToMemory _ _ _ _
  dsimp only
  split
  · exact Trades.bind (trades_throw rfl : Spares (throw (.error .outOfOffset))) fun _ =>
      hcopy _ _ _ _
  · exact hcopy _ _ _ _

theorem trades_copyExternalCode : Trades 4 (fun _ => 0) copyExternalCode :=
  trades_pop.bind fun _ => trades_pop.bind fun _ => trades_pop.bind fun _ => trades_pop.bind fun _ =>
    (spares_growMemory _ _).bind fun _ => (spares_reading _).bind fun _ =>
      spares_copyToMemory _ _ _ _

theorem trades_storeWord (width : Nat) : Trades 2 (fun _ => 0) (storeWord width) :=
  trades_pop.bind fun _ => trades_pop.bind fun _ => (spares_growMemory _ _).bind fun _ =>
    (spares_quantity _).bind fun _ => spares_writeMemory _ _ _

theorem trades_loadWord : Trades 1 (fun _ => 1) loadWord :=
  trades_pop.bind fun _ => (spares_growMemory _ _).bind fun _ => (spares_quantity _).bind fun _ =>
    spares_frame.bind fun _ => trades_push _

theorem trades_loadSlot : Trades 1 (fun _ => 1) loadSlot :=
  trades_pop.bind fun _ => spares_frame.bind fun _ => (spares_reading _).bind fun _ =>
    (spares_emit _).bind fun _ => trades_push _

theorem spares_addRefund (amount : Int) : Spares (fun _ => Machine.addRefund amount) :=
  fun _ _ _ _ => ⟨rfl, .ok _, fun _ _ => ⟨[], rfl, rfl⟩⟩

theorem trades_storeSlot : Trades 2 (fun _ => 0) storeSlot :=
  trades_pop.bind fun _ => trades_pop.bind fun _ => spares_frame.bind fun _ =>
    (spares_reading _).bind fun _ => (spares_addRefund _).bind fun _ => (spares_emit _).bind fun _ =>
      spares_changing _

theorem trades_leaveLog (n : Nat) : Trades (n + 2) (fun _ => 0) (leaveLog n) := by
  refine trades_pop.bind fun offset => trades_pop.bind fun len => ?_
  have hlog (topics : List Hash) : Spares (do
      let data ← readMemory offset len
      modifyFrame fun f => f.addLog ⟨f.message.recipient, topics, data⟩) :=
    (spares_readMemory _ _).bind fun _ => spares_modifyFrame (fun _ => rfl) fun _ => rfl
  have hall := (trades_popMany n).bind hlog
  rwa [Nat.zero_add] at hall

theorem trades_takeOutput : Trades 2 (fun _ => 0) takeOutput :=
  trades_pop.bind fun _ => trades_pop.bind fun _ => (spares_readMemory _ _).bind fun _ =>
    spares_modifyFrame (fun _ => rfl) fun _ => rfl

theorem trades_selfdestruct : Trades 1 (fun _ => 0) selfdestruct :=
  trades_pop.bind fun _ => spares_frame.bind fun _ => (spares_reading _).bind fun _ =>
    (spares_changing _).bind fun _ => (spares_changing _).bind fun _ =>
      (spares_changing _).bind fun _ => spares_modifyFrame (fun _ => rfl) fun _ => rfl

/-- How many items are left where the code goes on, if `n` are left in the end: a frame that waits
for its child leaves none, and gets one when it goes on. -/
def leaves (n : Nat) (control : Control) : Nat := if control = .suspend then 0 else n

theorem trades_next {p : Exec Unit} {k n : Nat} (hp : Trades k (fun _ => n) p) :
    Trades k (leaves n) (p >>= fun _ => pure .next) := hp.returning fun _ => rfl

theorem trades_jumpTo (w : Word) : Trades 0 (leaves 0) (jumpTo w) := by
  rw [jumpTo]
  split
  · exact trades_pure rfl
  · exact trades_throw rfl

theorem spares_cannotSpawn (value : Word) : Spares (cannotSpawn value) :=
  spares_frame.bind fun _ => (spares_reading _).bind fun _ => spares_read.bind fun _ => spares_pure _

theorem trades_create (value offset len : Word) (salt : Option Word) :
    Trades 0 (leaves 1) (Exec.create value offset len salt) := by
  refine (spares_readMemory _ _).bind fun initCode => ?_
  refine (spares_modifyFrame (by intro; rfl) (by intro; rfl)).bind fun _ => ?_
  refine (spares_cannotSpawn value).bind fun refused => ?_
  split
  · exact trades_next (trades_push _)
  refine spares_frame.bind fun f => (spares_changing _).bind fun nonce => ?_
  refine spares_read.bind fun c => (spares_charge _).bind fun _ => ?_
  exact (spares_modifyFrame (by intro; rfl) (by intro; rfl)).bind fun _ => trades_pure rfl

/-- The end of a call, once its operands are taken. -/
theorem trades_spawnCall (scheme : CallScheme) (value : Word) (target : Address) (input : Bytes)
    (gas : Nat) (resume : Resume) :
    Trades 0 (leaves 1) (spawnCall scheme value target input gas resume) := by
  refine (spares_modifyFrame (by intro; rfl) (by intro; rfl)).bind fun _ => ?_
  refine (spares_cannotSpawn value).bind fun refused => ?_
  split
  · exact (spares_modifyFrame (by intro; rfl) (by intro; rfl)).bind fun _ =>
      trades_next (trades_push _)
  · exact (spares_reading _).bind fun code =>
      (spares_modifyFrame (by intro; rfl) (by intro; rfl)).bind fun _ => trades_pure rfl

/-- The value of a call, and what comes after it. -/
theorem trades_popValue {f : Word → Exec β} {left : β → Nat} (scheme : CallScheme)
    (hf : ∀ value, Trades 4 left (f value)) :
    Trades (scheme.operands - 2) left
      (if scheme.takesValue then pop >>= f else pure 0 >>= f) := by
  rw [CallScheme.operands]
  by_cases h : scheme.takesValue
  · rw [if_pos h, if_pos h]
    exact trades_pop.bind hf
  · rw [if_neg h, if_neg h]
    exact (spares_pure 0).bind hf

theorem trades_call (scheme : CallScheme) :
    Trades scheme.operands (leaves 1) (Exec.call scheme) := by
  have hoperands : scheme.operands = scheme.operands - 2 + 1 + 1 := by
    cases scheme <;> rfl
  intro c m htaken hleft
  refine bind_ends_of_ok rfl (bind_ends_of_ok rfl (bind_ends_of_ok rfl ?_))
  refine lift_bind_ends (fun e he => ?_) fun split _ => ?_
  · exact ⟨rfl, .error (CallScheme.spared_gas _ htaken e he), nofun⟩
  suffices hrest : Trades scheme.operands (leaves 1) _ from hrest c m htaken hleft
  rw [hoperands]
  refine trades_pop.bind fun _ => trades_pop.bind fun target => ?_
  refine trades_popValue scheme fun value => ?_
  refine trades_pop.bind fun inOffset => trades_pop.bind fun inLen => ?_
  refine trades_pop.bind fun outOffset => trades_pop.bind fun outLen => ?_
  refine (spares_growMemory _ _).bind fun _ => (spares_readMemory _ _).bind fun input => ?_
  dsimp only
  split
  · exact (spares_pure _).bind fun _ => trades_spawnCall _ _ _ _ _ _
  · exact (spares_quantity _).bind fun _ => (spares_quantity _).bind fun _ =>
      (spares_pure _).bind fun _ => trades_spawnCall _ _ _ _ _ _

end Exec

namespace Instruction

open Exec

/-- **An instruction** takes and leaves as many items as is declared. -/
theorem trades_execute (i : Instruction) : Trades i.consumed (leaves i.produced) i.execute := by
  -- what an instruction takes is what its parts take, one after the other
  cases i with
  | stop => exact trades_throw rfl
  | unary op =>
    rw [consumed_unary, produced_unary]
    exact trades_pop.bind fun _ => trades_next (trades_push _)
  | binary op =>
    rw [consumed_binary, produced_binary]
    exact trades_pop.bind fun _ => trades_pop.bind fun _ => trades_next (trades_push _)
  | ternary op =>
    rw [consumed_ternary, produced_ternary]
    exact trades_pop.bind fun _ => trades_pop.bind fun _ => trades_pop.bind fun _ =>
      trades_next (trades_push _)
  | sha3 =>
    exact trades_pop.bind fun _ => trades_pop.bind fun _ => (spares_readMemory _ _).bind fun _ =>
      trades_next (trades_push _)
  | field which =>
    rw [consumed_field, produced_field]
    exact spares_frame.bind fun _ => trades_next (trades_push _)
  | account which =>
    rw [consumed_account, produced_account]
    exact trades_pop.bind fun _ => (spares_accountField _ _).bind fun _ => trades_next (trades_push _)
  | calldataload =>
    exact trades_pop.bind fun _ => spares_frame.bind fun _ => trades_next (trades_push _)
  | copy source =>
    rw [consumed_copy, produced_copy]
    exact trades_next (trades_copyData _)
  | extcodecopy => exact trades_next trades_copyExternalCode
  | blockhash =>
    exact trades_pop.bind fun _ => spares_frame.bind fun _ => trades_next (trades_push _)
  | pop => exact trades_pop.returning fun _ => rfl
  | mload => exact trades_next trades_loadWord
  | mstore => exact trades_next (trades_storeWord _)
  | mstore8 => exact trades_next (trades_storeWord _)
  | sload => exact trades_next trades_loadSlot
  | sstore => exact trades_next trades_storeSlot
  | jump => exact trades_pop.bind fun _ => trades_jumpTo _
  | jumpi =>
    refine trades_pop.bind fun _ => trades_pop.bind fun _ => ?_
    dsimp only
    split
    · exact trades_jumpTo _
    · exact trades_pure rfl
  | jumpdest => exact trades_pure rfl
  | push n => exact spares_frame.bind fun _ => trades_next (trades_push _)
  | dup n => exact trades_next (trades_dup _)
  | swap n => exact trades_next (trades_swap _)
  | log n => exact trades_next (trades_leaveLog _)
  | create =>
    exact trades_pop.bind fun value => trades_pop.bind fun offset => trades_pop.bind fun len =>
      trades_create value offset len none
  | create2 =>
    exact trades_pop.bind fun value => trades_pop.bind fun offset => trades_pop.bind fun len =>
      trades_pop.bind fun salt => trades_create value offset len (some salt)
  | call scheme =>
    rw [consumed_call, produced_call]
    exact trades_call scheme
  | ret =>
    refine trades_takeOutput.bind fun _ => ?_
    exact trades_throw rfl
  | revert => exact trades_takeOutput.bind fun _ => trades_throw rfl
  | invalid => exact trades_throw rfl
  | selfdestruct => exact trades_selfdestruct.bind fun _ => trades_throw rfl

/-- **An instruction that is paid for** takes and leaves as many items as is declared. -/
theorem trades_perform (i : Instruction) : Trades i.consumed (leaves i.produced) i.perform := by
  intro c m htaken hleft
  refine bind_ends_of_ok rfl (bind_ends_of_ok rfl (bind_ends_of_ok rfl ?_))
  refine lift_bind_ends (fun e he => ?_) fun cost _ => ?_
  · exact ⟨rfl, .error (spared_cost i htaken e he), nofun⟩
  have hpaid : Trades i.consumed (leaves i.produced) (do
      Exec.charge cost
      Exec.modifyFrame fun f => { f with currentCost := cost }
      i.execute) :=
    (spares_charge cost).bind fun _ =>
      (spares_modifyFrame (by intro; rfl) (by intro; rfl)).bind fun _ => i.trades_execute
  refine Ends.mono (hpaid c ⟨m.frame, m.journal, _⟩ htaken hleft) fun r m' h => ?_
  exact ⟨h.place_eq, h.spared, h.items_eq⟩

end Instruction
end Ethereum
