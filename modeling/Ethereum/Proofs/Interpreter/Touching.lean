/-
# What a step touches

An instruction touches only what is its own (`Instruction.Touches`): a slot, the nonce or the
balance of the account that the code acts on, and the balance of a beneficiary.  Its operands are
taken from the stack as it lies before the instruction is paid for, so what is written is known
before.

A step changes the innermost scope of the journal at most, and there what its instruction touches;
a step that halts the frame changes nothing (`Run.step_touches`).
-/

import Mathlib
import Ethereum.Proofs.Interpreter.Effects
import Ethereum.Proofs.Interpreter.Visiting
import Ethereum.Proofs.State.Seen

namespace Ethereum

open Journal

/-- Whether code ended by itself, and not with an error. -/
def ExitReason.isEnd : ExitReason → Bool
  | succeed _ | revert => true
  | _ => false

namespace Instruction

/-- What an instruction changes of what is read, where its operands lie on a stack and the code
acts on the account `own`.  That account may be missing before, but is there once it is
changed. -/
inductive Touches (store : Store) (own : Address) (items : List Word) (j j' : Journal) :
    Instruction → Prop
  | nothing {i : Instruction} (hi : i ≠ sstore ∧ i ≠ selfdestruct) (h : j' = j) :
    Touches store own items j j' i
  /-- One slot of the own account is set to the second operand. -/
  | slot {key value : Word} {rest : List Word} (hitems : items = key :: value :: rest)
    (hown : j.Alters store j' own (.setSlot key value))
    (helsewhere : ∀ a ≠ own, j.SameAt store j' a) : Touches store own items j j' sstore
  /-- The nonce of the own account is raised. -/
  | nonce {i : Instruction} (hi : i = create ∨ i = create2)
    (hown : j.Alters store j' own .raiseNonce)
    (helsewhere : ∀ a ≠ own, j.SameAt store j' a) : Touches store own items j j' i
  /-- The balances of a beneficiary, which is there from then on, and of the own account are
  changed. -/
  | balances {w : Word} {rest : List Word} (hitems : items = w :: rest)
    (hbeneficiary : ∃ balance, j.Alters store j' (Word.toAddress w) (.withBalance balance))
    (hown : ∃ balance, j.Alters store j' own (.withBalance balance))
    (helsewhere : ∀ a, a ≠ Word.toAddress w → a ≠ own → j.SameAt store j' a) :
    Touches store own items j j' selfdestruct

/-- What an instruction that comes to a result leaves of what is read. -/
inductive Reaches (store : Store) (own : Address) (items : List Word) (j j' : Journal)
    (i : Instruction) : Except ExitReason Control → Prop
  | halted {e : ExitError} (h : j' = j) : Reaches store own items j j' i (.error (.error e))
  | touched {r : Except ExitReason Control} (h : i.Touches store own items j j') :
    Reaches store own items j j' i r
  | fatal {e : ExitFatal} : Reaches store own items j j' i (.error (.fatal e))

variable {c : Context} {m : Machine}

/-- What an instruction that is run on a machine leaves. -/
abbrev ReachesOn (c : Context) (m : Machine) (i : Instruction) (r : Except ExitReason Control)
    (m' : Machine) : Prop :=
  Reaches c.store m.frame.message.recipient m.frame.stack.items m.journal m'.journal i r

open Exec

theorem sstore_reaches (hj : m.journal.Regular) :
    Ends (sstore.execute c) m (ReachesOn c m sstore) := by
  refine Ends.bind ?_
  refine pop_bind_restacks (fun _ => .halted rfl) fun key s₁ hkey => ?_
  refine pop_bind_restacks (fun _ => .halted rfl) fun value s₂ hvalue => ?_
  refine bind_ends_of_ok rfl (reading_bind_ends (fun e => .fatal) fun current _ =>
    bind_ends_of_ok rfl (bind_ends_of_ok rfl (Machine.changing_ends (fun e j _ => .fatal)
      fun _ j hwrite => ?_)))
  have hvalue : s₁.items = value :: s₂.items := hvalue
  have hreshapes := Reshapes.of_setSlot hj hwrite
  exact .touched (.slot (hvalue ▸ hkey) hreshapes.alters fun a ha => hreshapes.sameAt ha)

theorem selfdestruct_reaches (hj : m.journal.Regular) :
    Ends (selfdestruct.execute c) m (ReachesOn c m selfdestruct) := by
  refine Ends.bind ?_
  refine pop_bind_restacks (fun _ => .halted rfl) fun w s₁ hw => ?_
  refine bind_ends_of_ok rfl (reading_bind_ends (fun e => .fatal) fun balance _ => ?_)
  refine Ends.bind (Machine.changing_ends (fun e j _ => .fatal) fun _ j₁ hcreate => ?_)
  refine Ends.bind (Machine.changing_ends (fun e j _ => .fatal) fun raised j₂ hraise => ?_)
  refine Ends.bind (Machine.changing_ends (fun e j _ => .fatal) fun lowered j₃ hlower => ?_)
  have hj₁ := (regular_getOrCreate _ _ _).of_ok hcreate hj
  have hj₂ := ((regular_update _).mild.incrementBalance _ _ _).of_ok hraise hj₁
  have hthere :=
    (Reshapes.of_getOrCreate hj hcreate).trans (Reshapes.of_incrementBalance hj₁ hraise)
  obtain ⟨hbeneficiary, hown, helsewhere⟩ :=
    hthere.rebalances_both (Reshapes.of_decrementBalance hj₂ hlower)
  exact .touched (.balances hw hbeneficiary hown helsewhere)

/-- **What an instruction touches.** -/
theorem execute_reaches (i : Instruction) (hj : m.journal.Regular) :
    Ends (i.execute c) m (ReachesOn c m i) := by
  by_cases hi : i = sstore ∨ i = selfdestruct
  · rcases hi with rfl | rfl
    · exact sstore_reaches hj
    · exact selfdestruct_reaches hj
  · refine (execute_outcome i).mono fun r m' houtcome => ?_
    have nothing (h : m'.journal = m.journal) : ReachesOn c m i r m' :=
      .touched (.nothing (not_or.mp hi) h)
    cases houtcome with
    | quiet hquiet => exact nothing hquiet.journal_eq
    | logged topics data hjournal => exact nothing hjournal
    | called target value input code split resume hsplit hvalue hspawn hjournal =>
      exact nothing hjournal
    | refused value split hr hsplit hvalue hjournal => exact nothing hjournal
    | created value initCode salt nonce hcreate hspawn hnonce =>
      have hreshapes := Reshapes.of_incrementNonce hj hnonce
      exact .touched (.nonce hcreate hreshapes.alters fun a ha => hreshapes.sameAt ha)
    | wrote => exact absurd (.inl rfl) hi
    | destroyed => exact absurd (.inr rfl) hi
    | fatal => exact .fatal

/-- An instruction that is refused its price reaches nothing. -/
theorem reaches_of_cost {i : Instruction} {reason : ExitReason}
    (h : i.cost c m.frame m.journal = .error reason) : ReachesOn c m i (.error reason) m := by
  by_cases hi : i = sstore ∨ i = selfdestruct
  · have herror : reason.isEnd = false := by
      rcases hi with rfl | rfl
      · exact spared_sstoreCost ExitReason.isEnd (fun _ => rfl) (fun _ => rfl) _ _ _ _ h
      · exact spared_selfdestructCost ExitReason.isEnd (fun _ => rfl) (fun _ => rfl) _ _ _ _ _ h
    cases reason with
    | error => exact .halted rfl
    | fatal => exact .fatal
    | succeed | revert => cases herror
  · exact .touched (.nothing (not_or.mp hi) rfl)

theorem perform_reaches (i : Instruction) (hj : m.journal.Regular) :
    Ends (i.perform c) m (ReachesOn c m i) := by
  exact perform_ends_of_price (fun _ _ he => reaches_of_cost he) (fun _ _ _ _ => .halted rfl)
    fun _ _ _ _ => execute_reaches i hj

/-- What ends code exceptionally, or asks for a jump, changes no account. -/
theorem Outcome.journal_eq {i : Instruction} {r : Except ExitReason Control} {m' : Machine}
    (h : Outcome c m i r m') (hr : (∃ e, r = .error (.error e)) ∨ ∃ p, r = .ok (.jump p)) :
    m'.journal = m.journal := by
  cases h with
  | quiet hquiet => exact hquiet.journal_eq
  | refused value split hsuspend hsplit hvalue hjournal => exact hjournal
  | wrote | logged | created | called | destroyed | fatal => simp at hr

theorem Performed.journal_eq {i : Instruction} {r : Except ExitReason Control} {m' : Machine}
    (h : Performed c m i r m') (hr : (∃ e, r = .error (.error e)) ∨ ∃ p, r = .ok (.jump p)) :
    m'.journal = m.journal := by
  cases h with
  | unpaid hjournal => exact hjournal
  | paid hcost hpaid houtcome => exact (houtcome.journal_eq hr).trans hpaid.journal_eq

end Instruction

namespace Run

variable {c : Context} {m m' : Machine}

open Instruction

/-- **An exceptional halt** leaves the journal as it is. -/
theorem Stepped.journal_eq_of_halt (h : Stepped c m (.ok ()) m')
    (hstate : m.frame.state ≠ .exceptionalHalt) (hhalt : m'.frame.state = .exceptionalHalt) :
    m'.journal = m.journal := by
  cases h with
  | past hpc hjournal => exact hjournal
  | rejected he hjournal => exact hjournal
  | @continued i control m₁ _ hi h hjournal hframe =>
    rw [hframe] at hhalt
    cases control with
    | next => exact absurd ((h.kept nofun).state_eq.symm.trans hhalt) hstate
    | suspend => cases hhalt
    | jump position => exact hjournal.trans (h.journal_eq (.inr ⟨position, rfl⟩))
  | @left i reason m₁ _ hi h hjournal hframe =>
    cases reason with
    | error e => exact hjournal.trans (h.journal_eq (.inl ⟨e, rfl⟩))
    | succeed s =>
      rw [← Except.ok.inj hframe] at hhalt
      cases hhalt
    | revert =>
      rw [← Except.ok.inj hframe] at hhalt
      cases hhalt
    | fatal e => cases hframe

/-- What a step touches is what the instruction at the program counter does, unless there is none or
the frame is halted. -/
theorem step_reads (hj : m.journal.Regular) : Ends (step c) m fun r m' => r = .ok () →
    (m'.journal = m.journal ∧
        (m.frame.program.size ≤ m.frame.pc ∨ m'.frame.state = .exceptionalHalt)) ∨
      m.frame.pc < m.frame.program.size ∧ ∃ i, m.frame.instruction c.instructions = .ok i ∧
        i.Touches c.store m.frame.message.recipient m.frame.stack.items m.journal m'.journal := by
  refine step_ends_of (fun hpast _ => .inl ⟨rfl, .inl hpast⟩) (fun e he _ => .inl ⟨rfl, .inr rfl⟩)
    fun i hpc hi => perform_ends_of (perform_reaches i hj) ?_ ?_ fun _ _ _ => nofun
  · intro control m₁ h _
    cases h with
    | touched h => exact .inr ⟨hpc, i, hi, h⟩
  · intro reason m₁ f h hleave _
    cases h with
    | touched h => exact .inr ⟨hpc, i, hi, h⟩
    | halted hjournal =>
      cases hleave
      exact .inl ⟨hjournal, .inr rfl⟩
    | fatal => cases hleave

/-- **Each step only touches what its instruction owns.**  A step that returns opens and closes no
scope and does not change the world under the scopes.  Of what is read, it changes what the
instruction at the program counter touches, or nothing if there is none or if the step halts the
frame.  The journal is regular, as it is over a world and stays through all changes. -/
theorem step_touches (hregular : m.journal.Regular) (h : step c m = .ok () m') :
    m.journal.Inner m'.journal ∧
      ((m'.journal = m.journal ∧
          (m.frame.program.size ≤ m.frame.pc ∨ m'.frame.state = .exceptionalHalt)) ∨
        m.frame.pc < m.frame.program.size ∧ ∃ i, m.frame.instruction c.instructions = .ok i ∧
          i.Touches c.store m.frame.message.recipient m.frame.stack.items m.journal m'.journal) ∧
      (m.frame.state ≠ .exceptionalHalt → m'.frame.state = .exceptionalHalt →
        m'.journal = m.journal) := by
  have hstepped := step_ends.of_ok h
  exact ⟨hstepped.inner, (step_reads hregular).of_ok h rfl, hstepped.journal_eq_of_halt⟩

/-! ### A missing account that writes a slot -/

/-- A frame of account 2, which is deleted, that is about to write 9 into slot 7. -/
def writer : Machine where
  frame := { Frame.ofMessage {
      kind := .call, sender := 1, recipient := 2, contract := 3, originator := 1, gasPrice := 0,
      value := 0, apparentValue := 0, input := [], code := [0x55], gas := 100000, depth := 0,
      isStatic := false } ⟨0, 0, 0, 0, 0, #[]⟩ 1024 Quantity.max with
    state := .codeExecuting, stack := ⟨[7, 9, 5], 1021⟩ }
  journal := ⟨.empty, [], Scope.empty.delete 2⟩
  trace := .off

/-- The account is there after the step, with that slot and nothing else, and all other accounts
are read as before. -/
theorem step_touches_of_writer : writer.journal.Regular ∧ ∃ m, step bareContext writer = .ok () m ∧
    writer.journal.Inner m.journal ∧
    (∀ r, Ledger.read ⟨.empty, writer.journal⟩ 2 r = r.seen none) ∧
    (∀ r, Ledger.read ⟨.empty, m.journal⟩ 2 r = r.seen (some (Seen.fresh.setSlot 7 9))) ∧
    ∀ a ≠ 2, writer.journal.SameAt .empty m.journal a := by
  have hregular : writer.journal.Regular :=
    List.forall_mem_singleton.mpr (Scope.regular_empty.delete 2)
  have hi : writer.frame.instruction bareContext.instructions = .ok .sstore := by decide +kernel
  have hbefore : writer.journal.slot .empty 2 7 = .ok 0 := by decide +kernel
  have habsent : writer.journal.exists? .empty 2 = .ok false := by decide +kernel
  have hafter : (stateAfter (step bareContext) writer).journal.slot .empty 2 7 = .ok 9 := by
    decide +kernel
  have hreturns : (step bareContext writer matches .ok _ _) = true := by decide +kernel
  rw [stateAfter] at hafter
  cases hstep : step bareContext writer with
  | error e m =>
    rw [hstep] at hreturns
    cases hreturns
  | ok _ m =>
    rw [hstep] at hafter
    have hchanged : m.journal ≠ writer.journal := by
      intro heq
      rw [heq, hbefore] at hafter
      exact absurd hafter (by decide)
    obtain ⟨hinner, hreads, -⟩ := step_touches hregular hstep
    obtain ⟨-, i, hi', htouches⟩ := hreads.resolve_left fun h => hchanged h.1
    obtain rfl := Except.ok.inj (hi.symm.trans hi')
    refine ⟨hregular, m, rfl, hinner, ?_⟩
    cases htouches with
    | nothing hsstore => exact absurd rfl hsstore.1
    | nonce hcreate => simp at hcreate
    | slot hitems hown helsewhere =>
      cases hitems
      obtain ⟨found, hread, hread'⟩ := hown
      have hnone : found = none := by
        have hpresent : (writer.journal.exists? .empty 2).map Answer.flag =
            .ok (.flag found.isSome) := hread .present
        rw [habsent] at hpresent
        cases found with
        | none => rfl
        | some s => cases hpresent
      subst hnone
      exact ⟨hread, hread', helsewhere⟩

end Run
end Ethereum
