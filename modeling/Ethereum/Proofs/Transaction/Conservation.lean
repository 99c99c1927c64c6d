/-
# Trees conserve value

Value moves when a frame starts and when an account deletes itself.  A frame starts with a
value that its sender has: the parent has checked what its account has before it suspended,
and nothing changes until the child begins; a delegated or static call moves nothing.  So no
balance saturates, and all that instructions, frames and whole trees do leaves the accounts
with the total that they had (`Lifecycle.runTree_conserves`), whatever is committed or
reverted on the way.
-/

import Mathlib
import Ethereum.Proofs.State.Balances
import Ethereum.Proofs.Transaction.Ending

namespace Ethereum

/-- The sender of the message has its value. -/
def Balances.Covers (b : Balances) (message : Message) : Prop :=
  message.value ≤ b message.sender

/-- The accounts have this total. -/
def Journal.Totals (store : Store) (total : Nat) (j : Journal) : Prop :=
  ∃ b : Balances, j.HasBalances store b ∧ b.total = total

variable {total : Nat} {b : Balances}

/-! ## Instructions -/

namespace Instruction

variable {c : Context} {m m' : Machine} {i : Instruction} {r : Except ExitReason Control}

/-- The message of a call is covered by what was checked of the own account: only calls that
keep it as the sender move a value. -/
theorem covers_callMessage {scheme : CallScheme} {f : Frame} {value : Word}
    (hvalue : scheme.valueOperand f = .ok value) (h : value ≤ b f.message.recipient)
    (target : Address) (input code : Bytes) (gas : Nat) :
    b.Covers (Exec.callMessage scheme f target value input code gas) := by
  have hzero (htakes : scheme.takesValue = false) (sender : Address) : value ≤ b sender := by
    rw [CallScheme.valueOperand, if_neg (by simp [htakes])] at hvalue
    obtain rfl := Except.ok.inj hvalue
    exact BitVec.le_def.mpr (Nat.zero_le _)
  cases scheme with
  | call => exact h
  | callCode => exact h
  | delegateCall => exact hzero rfl _
  | staticCall => exact hzero rfl _

/-- **An instruction conserves value**, and a frame that it suspends waits for a child that is
covered. -/
theorem Outcome.conserves (h : Outcome c m i r m') (hr : ∀ e, r ≠ .error (.fatal e))
    (hb : m.journal.HasBalances c.store b) (htotal : b.total < 2 ^ 255) :
    ∃ b' : Balances, m'.journal.HasBalances c.store b' ∧ b'.total = b.total ∧
      (r = .ok .suspend → ∀ message, m'.frame.child = some message → b'.Covers message) := by
  cases h with
  | quiet h hcontrol =>
    exact ⟨b, h.journal_eq ▸ hb, rfl, fun hsuspend => absurd rfl (hcontrol _ hsuspend).1⟩
  | wrote key value amount hwrite hframe => exact ⟨b, hb.setSlot hwrite, rfl, nofun⟩
  | logged topics data hjournal hframe => exact ⟨b, hjournal ▸ hb, rfl, nofun⟩
  | created value initCode salt nonce hi hspawn hnonce hframe =>
    refine ⟨b, hb.incrementNonce hnonce, rfl, fun _ message hmessage => ?_⟩
    obtain ⟨balance, hbalance, hle⟩ := hspawn.affords
    obtain rfl := Except.ok.inj (hbalance.symm.trans (hb.balance_eq _))
    obtain rfl := Option.some.inj (hframe.child_eq.symm.trans hmessage)
    exact hle
  | called target value input code split resume hsplit hvalue hspawn hjournal hframe =>
    refine ⟨b, hjournal ▸ hb, rfl, fun _ message hmessage => ?_⟩
    obtain ⟨balance, hbalance, hle⟩ := hspawn.affords
    obtain rfl := Except.ok.inj (hbalance.symm.trans (hb.balance_eq _))
    obtain rfl := Option.some.inj (hframe.child_eq.symm.trans hmessage)
    exact covers_callMessage hvalue hle target input code _
  | refused value split hcontrol hsplit hvalue hjournal hframe =>
    exact ⟨b, hjournal ▸ hb, rfl, fun hsuspend => absurd hsuspend hcontrol⟩
  | destroyed beneficiary balance raised lowered hbalance hcreate hraise hlower hframe =>
    obtain rfl := Except.ok.inj (hbalance.symm.trans (hb.balance_eq _))
    exact ⟨b.bequeath m.frame.message.recipient beneficiary,
      ((hb.getOrCreate hcreate).incrementBalance hraise).decrementBalance hlower,
      Balances.total_bequeath htotal, nofun⟩
  | fatal h => exact absurd rfl (hr _)

theorem Performed.conserves (h : Performed c m i r m') (hr : ∀ e, r ≠ .error (.fatal e))
    (hb : m.journal.HasBalances c.store b) (htotal : b.total < 2 ^ 255) :
    ∃ b' : Balances, m'.journal.HasBalances c.store b' ∧ b'.total = b.total ∧
      (r = .ok .suspend → ∀ message, m'.frame.child = some message → b'.Covers message) := by
  cases h with
  | unpaid hjournal hframe => exact ⟨b, hjournal ▸ hb, rfl, nofun⟩
  | paid hcost hpaid houtcome =>
    exact houtcome.conserves hr (hpaid.journal_eq ▸ hb) htotal

end Instruction

/-! ## Frames -/

/-- The accounts have this total, and they cover the message of a frame that is to start, and
that of the child that a frame waits for. -/
def Machine.Solvent (store : Store) (total : Nat) (m : Machine) : Prop :=
  ∃ b : Balances, m.journal.HasBalances store b ∧ b.total = total ∧
    (m.frame.state = .notStarted → b.Covers m.frame.message) ∧
    (m.frame.state = .codeSuspended → ∀ message, m.frame.child = some message → b.Covers message)

theorem Machine.Solvent.totals {store : Store} {m : Machine} (h : m.Solvent store total) :
    m.journal.Totals store total := by
  obtain ⟨b, hb, htotal, -, -⟩ := h
  exact ⟨b, hb, htotal⟩

/-- There is no message to cover while a frame neither is to start nor waits. -/
theorem Machine.solvent_of_ne {store : Store} {m : Machine} (h : m.journal.Totals store total)
    (hstarted : m.frame.state ≠ .notStarted) (hsuspended : m.frame.state ≠ .codeSuspended) :
    m.Solvent store total := by
  obtain ⟨b, hb, htotal⟩ := h
  exact ⟨b, hb, htotal, fun h => absurd h hstarted, fun h => absurd h hsuspended⟩

/-- **A step conserves value.** -/
theorem Run.Stepped.solvent {c : Context} {m m' : Machine} (h : Stepped c m (.ok ()) m')
    (hstate : m.frame.state = .codeExecuting) (hm : m.Solvent c.store total)
    (htotal : total < 2 ^ 255) : m'.Solvent c.store total := by
  obtain ⟨b, hb, rfl, -, -⟩ := hm
  -- only a performed instruction moves value; the others end the frame or pass it
  cases h with
  | past hpc hjournal hframe =>
    exact Machine.solvent_of_ne ⟨b, hjournal ▸ hb, rfl⟩ (by simp [hframe, Frame.stopIn])
      (by simp [hframe, Frame.stopIn])
  | rejected he hjournal hframe =>
    exact Machine.solvent_of_ne ⟨b, hjournal ▸ hb, rfl⟩ (by simp [hframe, Frame.halt, Frame.stopIn])
      (by simp [hframe, Frame.halt, Frame.stopIn])
  | @continued i control m₁ _ hi h hjournal hframe =>
    have hcontrol (e : ExitFatal) :
        (.ok control : Except ExitReason Control) ≠ .error (.fatal e) := by
      rintro ⟨⟩
    obtain ⟨b', hb', htotal', hchild⟩ := h.conserves hcontrol hb htotal
    have hkept := (h.kept hcontrol).state_eq.trans hstate
    rw [← hjournal] at hb'
    cases control with
    | next =>
      refine Machine.solvent_of_ne ⟨b', hb', htotal'⟩ ?_ ?_ <;>
        simp [hframe, Frame.advance, hkept]
    | jump position =>
      refine Machine.solvent_of_ne ⟨b', hb', htotal'⟩ ?_ ?_ <;>
        rw [hframe, Frame.advance] <;> split <;> simp [hkept, Frame.halt, Frame.stopIn]
    | suspend =>
      have hframe : m'.frame =
          { m₁.frame with pc := m₁.frame.pc + i.size, state := .codeSuspended } := hframe
      refine ⟨b', hb', htotal', fun h => ?_, fun _ message hmessage => ?_⟩
      · simp [hframe] at h
      · rw [hframe] at hmessage
        exact hchild rfl message hmessage
  | @left i reason m₁ _ hi h hjournal hframe =>
    have hreason (e : ExitFatal) :
        (.error reason : Except ExitReason Control) ≠ .error (.fatal e) := by
      rintro ⟨⟩
      cases hframe
    obtain ⟨b', hb', htotal', -⟩ := h.conserves hreason hb htotal
    rw [← hjournal] at hb'
    cases reason with
    | fatal e => cases hframe
    | _ =>
      exact Machine.solvent_of_ne ⟨b', hb', htotal'⟩
        (by simp [← Except.ok.inj hframe, Frame.stopIn])
        (by simp [← Except.ok.inj hframe, Frame.stopIn])

namespace Lifecycle

variable {s : Setting} {root m m' next : Machine} {j : Journal} {js : List Journal}
  {parents : List Frame}

theorem Opened.conserves {store : Store} {config : Config} {message : Message} {j j' : Journal}
    (h : Opened store config message j j') (hb : j.HasBalances store b) (hcovers : b.Covers message)
    (htotal : b.total < 2 ^ 255) : j'.Totals store b.total := by
  have hmoved : (b.transfer message.sender message.payee message.value).total = b.total :=
    Balances.total_transfer hcovers (by omega)
  cases h with
  | refused => exact ⟨b, hb, rfl⟩
  | paid htransfer => exact ⟨_, hb.transfer htransfer, hmoved⟩
  | named hkind hincrease htransfer hnonce =>
    exact ⟨_, (hb.transfer htransfer).incrementNonce hnonce, hmoved⟩

/-- **The start of a frame conserves value**, as its message is covered. -/
theorem Started.solvent (h : Started s m (.ok ()) m') (hstate : m.frame.state = .notStarted)
    (hm : m.Solvent s.store total) (htotal : total < 2 ^ 255) : m'.Solvent s.store total := by
  obtain ⟨b, hb, rfl, hcovers, -⟩ := hm
  have hopened {j : Journal} (h : Opened s.store s.config m.frame.message m.journal j) :
      j.Totals s.store b.total := h.conserves hb (hcovers hstate) htotal
  cases h with
  | executing hjournal hframe =>
    exact Machine.solvent_of_ne (hopened hjournal) (by simp [hframe]) (by simp [hframe])
  | completed gas output hgas hjournal hframe =>
    exact Machine.solvent_of_ne (hopened hjournal) (by simp [hframe]) (by simp [hframe])
  | halted gas e hgas hjournal hframe =>
    exact Machine.solvent_of_ne (hopened hjournal) (by simp [hframe, Frame.halt, Frame.stopIn])
      (by simp [hframe, Frame.halt, Frame.stopIn])

theorem Succeeded.solvent (h : Succeeded s m (.ok ()) m') (hm : m.Solvent s.store total) :
    m'.Solvent s.store total := by
  obtain ⟨b, hb, htotal⟩ := hm.totals
  cases h with
  | completed hjournal hframe =>
    exact Machine.solvent_of_ne ⟨b, hjournal ▸ hb, htotal⟩ (by simp [hframe]) (by simp [hframe])
  | deployed hkind hlimit hgas hcode hframe =>
    exact Machine.solvent_of_ne ⟨b, hb.setCode hcode, htotal⟩ (by simp [hframe]) (by simp [hframe])
  | halted e hjournal hframe =>
    exact Machine.solvent_of_ne ⟨b, hjournal ▸ hb, htotal⟩
      (by simp [hframe, Frame.halt, Frame.stopIn])
      (by simp [hframe, Frame.halt, Frame.stopIn])

theorem solvent_failed (hm : m.Solvent s.store total) :
    Machine.Solvent s.store total { m with frame := failed m.frame } := by
  rw [failed]
  split
  · exact Machine.solvent_of_ne hm.totals (by simp) (by simp)
  · exact Machine.solvent_of_ne hm.totals (by simp) (by simp)
  · exact hm

/-- **The work of a frame conserves value.** -/
theorem work_solvent (hm : m.Solvent s.store total) (htotal : total < 2 ^ 255) :
    Ends (work s) m fun r m' => r = .ok () → m'.Solvent s.store total := by
  refine work_ends (P := fun r m' => r = .ok () → m'.Solvent s.store total) ?_ ?_ ?_ ?_ fun _ => hm
  · rintro m r m' hstate hm h rfl
    exact h.solvent hstate (hm rfl) htotal
  · rintro m r m' hstate hm h rfl
    exact h.solvent hstate (hm rfl) htotal
  · rintro m r m' hstate hm h rfl
    exact h.solvent (hm rfl)
  · exact fun m hm _ => solvent_failed (hm rfl)

/-- **A frame that advances conserves value**, whether its scope stays open, is merged or is
dropped. -/
theorem advance_solvent (hj : j.enter.Inner m.journal) (houter : j.Totals s.store total)
    (hm : m.Solvent s.store total) (htotal : total < 2 ^ 255) (h : advance s m = .ok () m') :
    m'.Solvent s.store total := by
  obtain ⟨m₁, hwork, hframe, hinner, ⟨rfl, -⟩ | hcloses⟩ := exists_closes_of_advance hj h
  · exact (work_solvent hm htotal).of_ok hwork rfl
  have hm₁ := (work_solvent hm htotal).of_ok hwork rfl
  cases hcloses with
  | merged hstate hjournal =>
    obtain ⟨b, hb, hb'⟩ := hm₁.totals
    exact Machine.solvent_of_ne ⟨b, hjournal ▸ hb.merge hinner, hb'⟩ (by simp [hframe, hstate])
      (by simp [hframe, hstate])
  | dropped hstate hforced =>
    -- what the frame moved is undone with its scope, and accounts that are created hold nothing
    obtain ⟨b, hb, hb'⟩ := houter
    exact Machine.solvent_of_ne ⟨b, hb.forM_getOrCreate hforced, hb'⟩ (by simp [hframe, hstate])
      (by simp [hframe, hstate])

/-! ## Trees -/

/-- **All machines that are reached** have the total of the root, and so have the journals from
before their open scopes. -/
theorem Reached.solvent (hroot : root.frame.state = .notStarted)
    (hsolvent : root.Solvent s.store total) (htotal : total < 2 ^ 255)
    (h : Reached s root js parents m) :
    m.Solvent s.store total ∧ ∀ j ∈ js, j.Totals s.store total := by
  induction h with
  | start =>
    obtain ⟨b, hb, hb', hcovers⟩ := hsolvent
    exact ⟨⟨b, hb.enter, hb', hcovers⟩, List.forall_mem_singleton.mpr ⟨b, hb, hb'⟩⟩
  | descend hreached hadvance hstate hround ih =>
    obtain ⟨hm, hjs⟩ := ih
    have hready := hreached.ready hroot
    obtain ⟨j, js, rfl⟩ := hready.exists_cons
    have hm' := advance_solvent hready.nested.1 (hjs j List.mem_cons_self) hm htotal hadvance
    obtain ⟨message, hchild, hframe, hjournal, -⟩ := descends_of_round hadvance hstate hround
    refine ⟨?_, List.forall_mem_cons.mpr ⟨hm'.totals, hjs⟩⟩
    obtain ⟨b, hb, hb', -, hcovers⟩ := hm'
    -- the frame could pay for the child that it asked for, and nothing was moved since
    refine ⟨b, hjournal ▸ hb.enter, hb', fun _ => ?_, fun h => ?_⟩
    · rw [hframe]
      exact hcovers hstate message hchild
    · rw [hframe] at h
      cases h
  | @ascend j _ _ _ _ _ next hreached hadvance hstate hround ih =>
    obtain ⟨hm, hjs⟩ := ih
    have hready := hreached.ready hroot
    have hm' := advance_solvent hready.nested.1 (hjs j List.mem_cons_self) hm htotal hadvance
    obtain ⟨parent, -, hjournal, hframe⟩ := ascends_of_round hadvance hstate hround
    have hexecuting : next.frame.state = .codeExecuting := hframe.kept.state_eq
    refine ⟨?_, fun j' hj' => hjs j' (List.mem_cons_of_mem j hj')⟩
    exact Machine.solvent_of_ne (hjournal ▸ hm'.totals) (by simp [hexecuting])
      (by simp [hexecuting])

/-- **A tree conserves value**, and changes the innermost scope only. -/
theorem runTree_conserves (hroot : root.frame.state = .notStarted)
    (hsolvent : root.Solvent s.store total) (htotal : total < 2 ^ 255)
    (h : runTree s root = .ok () m') :
    m'.journal.Totals s.store total ∧ root.journal.Inner m'.journal := by
  obtain ⟨m₁, hreached, hadvance, hstate⟩ := runTree_reaches hroot h
  have hready := hreached.ready hroot
  obtain ⟨hm₁, houter⟩ := hreached.solvent hroot hsolvent htotal
  have hsolvent' := advance_solvent hready.nested.1 (houter _ List.mem_cons_self) hm₁ htotal hadvance
  exact ⟨hsolvent'.totals, (advance_cases hready.state hready.nested.1 hadvance).2.inner hstate⟩

end Lifecycle
end Ethereum
